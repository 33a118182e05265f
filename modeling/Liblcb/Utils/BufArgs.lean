import Liblcb.Utils.Mem
import Liblcb.Lib.Buffer

/-!
# Arguments of a text

`buf2args` of `utils/buf_str.c`.  Each argument is ended by a zero written behind it.  An argument
that goes to the end of the buffer has nothing behind it to write to.
-/

namespace BufArgs

open Mem Buffer

def quote : Byte := 0x22#8

def isSptab (b : Byte) : Bool := b = chr ' ' || b = 0x09#8

def calcSptabCount : List Byte → Nat
  | [] => 0
  | b :: buf => if isSptab b then calcSptabCount buf + 1 else 0

def calcNonSptabCount : List Byte → Nat
  | [] => 0
  | b :: buf => if isSptab b then 0 else calcNonSptabCount buf + 1

/-- The loop of `buf2args`: an argument is its offset and its size.  `none` is a write outside the
buffer, or a loop that does not end within the fuel. -/
def argsLoop (maxArgs : Nat) : Nat → List Byte → Nat → Nat → List (Nat × Nat) →
    Option (List Byte × List (Nat × Nat))
  | 0, _, _, _, _ => none
  | fuel + 1, buf, curPos, curSize, args =>
    if args.length < maxArgs ∧ curPos < buf.length then
      let sptabCount := calcSptabCount ((buf.drop curPos).take curSize)
      if curSize ≤ sptabCount then some (buf, args)
      else
        let curSize := curSize - sptabCount
        let curPos := curPos + sptabCount
        if buf[curPos]? = some quote then do
          let curPos := curPos + 1
          let curSize := curSize - 1
          let dataSize := (memChr ((buf.drop curPos).take curSize) quote).getD curSize
          let buf ← put buf (curPos + dataSize) 0
          argsLoop maxArgs fuel buf (curPos + (dataSize + 1)) (curSize - (dataSize + 1))
            (args ++ [(curPos, dataSize)])
        else do
          let dataSize := calcNonSptabCount ((buf.drop curPos).take curSize)
          let buf ← put buf (curPos + dataSize) 0
          argsLoop maxArgs fuel buf (curPos + (dataSize + 1)) (curSize - (dataSize + 1))
            (args ++ [(curPos, dataSize)])
    else some (buf, args)

/-- `buf2args`: the buffer after the call, and what it stored in `args` and `args_sizes`. -/
def buf2args (buf : List Byte) (maxArgs : Nat) : Option (List Byte × List (Nat × Nat)) :=
  if buf.length = 0 ∨ maxArgs = 0 then some (buf, [])
  else argsLoop maxArgs (buf.length + 1) buf 0 buf.length []

/-! ## What the arguments are -/

/-- The first argument of a text that begins at `pos`, and how much of the text it takes with the
blanks before it and what ends it.  A quoted argument goes up to the next quote. -/
def firstArg (pos : Nat) (text : List Byte) : Option ((Nat × Nat) × Nat) :=
  let blanks := (text.takeWhile isSptab).length
  match text.drop blanks with
  | [] => none
  | b :: rest =>
    if b = quote then
      let size := (rest.takeWhile (· ≠ quote)).length
      some ((pos + blanks + 1, size), blanks + 1 + size + 1)
    else
      let size := ((b :: rest).takeWhile (!isSptab ·)).length
      some ((pos + blanks, size), blanks + size + 1)

/-- The arguments of a text that begins at `pos`. -/
def argsFrom : Nat → Nat → List Byte → List (Nat × Nat)
  | 0, _, _ => []
  | fuel + 1, pos, text =>
    match firstArg pos text with
    | none => []
    | some (arg, taken) => arg :: argsFrom fuel (pos + taken) (text.drop taken)

def arguments (text : List Byte) : List (Nat × Nat) := argsFrom text.length 0 text

/-! ## The counting loops -/

theorem calcSptabCount_eq (buf : List Byte) :
    calcSptabCount buf = (buf.takeWhile isSptab).length := by
  induction buf with
  | nil => rfl
  | cons b buf ih =>
    rw [calcSptabCount, List.takeWhile_cons, ih]
    split
    · rfl
    · rfl

theorem calcNonSptabCount_eq (buf : List Byte) :
    calcNonSptabCount buf = (buf.takeWhile (!isSptab ·)).length := by
  induction buf with
  | nil => rfl
  | cons b buf ih =>
    rw [calcNonSptabCount, List.takeWhile_cons, ih]
    cases isSptab b with
    | true => rfl
    | false => rfl

theorem memChr_getD (buf : List Byte) (c : Byte) :
    (memChr buf c).getD buf.length = (buf.takeWhile (· ≠ c)).length := by
  induction buf with
  | nil => rfl
  | cons b buf ih =>
    unfold memChr at ih ⊢
    rw [List.idxOf?_cons, List.takeWhile_cons]
    by_cases hb : b = c
    · simp [hb]
    · simp only [beq_iff_eq, hb, if_false, ne_eq, decide_not, decide_false, Bool.not_false, if_true,
        List.length_cons]
      simp only [ne_eq, decide_not] at ih
      rw [← ih]
      cases hidx : buf.idxOf? c with
      | none => rfl
      | some i => rfl

/-! ## One argument -/

theorem length_takeWhile_le {α : Type} (p : α → Bool) (l : List α) :
    (l.takeWhile p).length ≤ l.length := (List.takeWhile_prefix p).length_le

theorem firstArg_bounds {pos taken : Nat} {text : List Byte} {arg : Nat × Nat}
    (h : firstArg pos text = some (arg, taken)) :
    pos ≤ arg.1 ∧ arg.1 + arg.2 + 1 = pos + taken ∧ taken ≤ text.length + 1 ∧ 0 < taken := by
  have hblanks := length_takeWhile_le isSptab text
  unfold firstArg at h
  dsimp only at h
  generalize (text.takeWhile isSptab).length = blanks at h hblanks
  cases hrest : text.drop blanks with
  | nil =>
    rw [hrest] at h
    cases h
  | cons b rest =>
    have hlen := congrArg List.length hrest
    rw [List.length_drop, List.length_cons] at hlen
    rw [hrest] at h
    dsimp only at h
    by_cases hquote : b = quote
    · have hsize := length_takeWhile_le (· ≠ quote) rest
      rw [if_pos hquote, Option.some.injEq, Prod.mk.injEq] at h
      rcases h with ⟨rfl, rfl⟩
      dsimp only
      omega
    · have hsize := length_takeWhile_le (!isSptab ·) (b :: rest)
      rw [List.length_cons] at hsize
      rw [if_neg hquote, Option.some.injEq, Prod.mk.injEq] at h
      rcases h with ⟨rfl, rfl⟩
      dsimp only
      omega

theorem argsFrom_ge : ∀ (fuel pos : Nat) (text : List Byte), ∀ arg ∈ argsFrom fuel pos text,
    pos ≤ arg.1
  | 0, _, _, arg, harg => by cases harg
  | fuel + 1, pos, text, arg, harg => by
    rw [argsFrom] at harg
    cases hfirst : firstArg pos text with
    | none =>
      rw [hfirst] at harg
      cases harg
    | some first =>
      rcases first with ⟨first, taken⟩
      have hbounds := firstArg_bounds hfirst
      rw [hfirst] at harg
      rcases List.mem_cons.mp harg with rfl | harg
      · exact hbounds.1
      · have hge := argsFrom_ge fuel (pos + taken) (text.drop taken) arg harg
        omega

/-- One turn of the loop. -/
theorem argsLoop_step {maxArgs curPos : Nat} {args : List (Nat × Nat)} (fuel : Nat)
    (buf : List Byte) (hpos : curPos ≤ buf.length) (hargs : args.length < maxArgs) :
    argsLoop maxArgs (fuel + 1) buf curPos (buf.length - curPos) args =
      match firstArg curPos (buf.drop curPos) with
      | none => some (buf, args)
      | some (arg, taken) =>
        (put buf (arg.1 + arg.2) 0).bind fun buf' =>
          argsLoop maxArgs fuel buf' (curPos + taken) (buf.length - (curPos + taken))
            (args ++ [arg]) := by
  have hsize : (buf.drop curPos).length = buf.length - curPos := List.length_drop
  have htext : (buf.drop curPos).take (buf.length - curPos) = buf.drop curPos := by
    rw [← hsize, List.take_length]
  rw [argsLoop, htext, calcSptabCount_eq]
  unfold firstArg
  dsimp only
  have hblanks := length_takeWhile_le isSptab (buf.drop curPos)
  generalize ((buf.drop curPos).takeWhile isSptab).length = blanks at hblanks
  by_cases hend : curPos < buf.length
  · rw [if_pos ⟨hargs, hend⟩]
    cases hrest : (buf.drop curPos).drop blanks with
    | nil =>
      have hlen := congrArg List.length hrest
      rw [List.length_drop, hsize, List.length_nil] at hlen
      rw [if_pos (by omega)]
    | cons b rest =>
      have hlen := congrArg List.length hrest
      rw [List.length_drop, hsize, List.length_cons] at hlen
      have hdrop : buf.drop (curPos + blanks) = b :: rest := by rw [← List.drop_drop, hrest]
      have hget : buf[curPos + blanks]? = some b := by
        rw [← List.head?_drop, hdrop]
        rfl
      rw [if_neg (by omega), hget]
      dsimp only
      by_cases hquote : b = quote
      -- a quoted argument: the loop goes on behind the quote
      · have hdrop' : buf.drop (curPos + blanks + 1) = rest := by
          rw [← List.drop_drop, hdrop]
          rfl
        have hall : rest.take (buf.length - curPos - blanks - 1) = rest :=
          List.take_of_length_le (by omega)
        have hwidth : buf.length - curPos - blanks - 1 = rest.length := by omega
        rw [if_pos (congrArg some hquote), if_pos hquote, hdrop', hall, hwidth, memChr_getD]
        generalize (rest.takeWhile (· ≠ quote)).length = size
        dsimp only
        rw [Option.bind_eq_bind]
        congr 1
        funext buf'
        congr 1
        · omega
        · omega
      -- one without quotes, up to the next blank
      · have hall : (b :: rest).take (buf.length - curPos - blanks) = b :: rest := by
          apply List.take_of_length_le
          rw [List.length_cons]
          omega
        rw [if_neg (fun h => hquote (Option.some.inj h)), if_neg hquote, hdrop, hall,
          calcNonSptabCount_eq]
        generalize ((b :: rest).takeWhile (!isSptab ·)).length = size
        dsimp only
        rw [Option.bind_eq_bind]
        congr 1
        funext buf'
        congr 1
        · omega
        · omega
  · rw [if_neg (fun h => hend h.2), List.drop_eq_nil_of_le (by rw [hsize]; omega)]

/-! ## All arguments -/

/-- The bytes of an argument are the same in both buffers. -/
def SameAt (buf buf' : List Byte) (arg : Nat × Nat) : Prop :=
  ∀ i, arg.1 ≤ i → i < arg.1 + arg.2 → buf'[i]? = buf[i]?

/-- The loop goes over the arguments of the text that is left; it is over when they end or enough
are stored, and leaves the buffer where one of them goes to the end of it. -/
theorem argsLoop_eq (maxArgs : Nat) : ∀ (n : Nat) (buf : List Byte) (pos : Nat)
    (args : List (Nat × Nat)), pos ≤ buf.length → buf.length - pos ≤ n →
    args.length ≤ maxArgs →
    ((∀ arg ∈ (argsFrom n pos (buf.drop pos)).take (maxArgs - args.length),
        arg.1 + arg.2 < buf.length) →
      ∃ buf', argsLoop maxArgs (n + 1) buf pos (buf.length - pos) args =
          some (buf', args ++ (argsFrom n pos (buf.drop pos)).take (maxArgs - args.length)) ∧
        buf'.length = buf.length ∧ (∀ i < pos, buf'[i]? = buf[i]?) ∧
        ∀ arg ∈ (argsFrom n pos (buf.drop pos)).take (maxArgs - args.length), SameAt buf buf' arg) ∧
    ((∃ arg ∈ (argsFrom n pos (buf.drop pos)).take (maxArgs - args.length),
        buf.length ≤ arg.1 + arg.2) →
      argsLoop maxArgs (n + 1) buf pos (buf.length - pos) args = none) := by
  intro n
  induction n with
  | zero =>
    intro buf pos args hpos hleft _
    have hrun : argsLoop maxArgs 1 buf pos (buf.length - pos) args = some (buf, args) :=
      if_neg (by omega)
    rw [argsFrom, List.take_nil, List.append_nil]
    refine ⟨fun _ => ⟨buf, hrun, rfl, fun _ _ => rfl, fun arg harg => by cases harg⟩, ?_⟩
    rintro ⟨arg, harg, -⟩
    cases harg
  | succ n ih =>
    intro buf pos args hpos hleft hargs
    by_cases hfull : args.length = maxArgs
    · have hrun : argsLoop maxArgs (n + 1 + 1) buf pos (buf.length - pos) args =
          some (buf, args) := if_neg (by omega)
      rw [hfull, Nat.sub_self, List.take_zero, List.append_nil]
      refine ⟨fun _ => ⟨buf, hrun, rfl, fun _ _ => rfl, fun arg harg => by cases harg⟩, ?_⟩
      rintro ⟨arg, harg, -⟩
      cases harg
    have hstep := argsLoop_step (n + 1) buf hpos (Nat.lt_of_le_of_ne hargs hfull)
    rw [hstep, argsFrom]
    have hroom : maxArgs - args.length = maxArgs - (args.length + 1) + 1 := by omega
    cases hfirst : firstArg pos (buf.drop pos) with
    | none =>
      dsimp only
      rw [List.take_nil, List.append_nil]
      refine ⟨fun _ => ⟨buf, rfl, rfl, fun _ _ => rfl, fun arg harg => by cases harg⟩, ?_⟩
      rintro ⟨arg, harg, -⟩
      cases harg
    | some first =>
      rcases first with ⟨first, taken⟩
      dsimp only
      rcases firstArg_bounds hfirst with ⟨hge, hend, htaken, htpos⟩
      rw [List.length_drop] at htaken
      rw [hroom, List.take_succ_cons]
      by_cases hin : first.1 + first.2 < buf.length
      · -- the zero is written on what ends the argument, so the rest of the text is as it was
        have hput : put buf (first.1 + first.2) 0 = some (buf.set (first.1 + first.2) 0) :=
          if_pos hin
        have hlen : (buf.set (first.1 + first.2) 0).length = buf.length := List.length_set
        have hrest : (buf.set (first.1 + first.2) 0).drop (pos + taken) =
            (buf.drop pos).drop taken := by
          rw [List.drop_set_of_lt (by omega), List.drop_drop]
        have hset : ∀ i, i ≠ first.1 + first.2 →
            (buf.set (first.1 + first.2) 0)[i]? = buf[i]? :=
          fun i hi => List.getElem?_set_ne (fun h => hi h.symm)
        rcases ih (buf.set (first.1 + first.2) 0) (pos + taken) (args ++ [first])
          (by rw [hlen]; omega) (by rw [hlen]; omega)
          (by rw [List.length_append, List.length_singleton]; omega) with ⟨hok, hbad⟩
        rw [hlen, hrest, List.length_append, List.length_singleton] at hok hbad
        rw [hput, Option.bind_some]
        constructor
        · intro hall
          rcases hok fun arg harg => hall arg (List.mem_cons_of_mem _ harg) with
            ⟨buf', hrun, hlen', hbefore, hsame⟩
          refine ⟨buf', ?_, hlen', ?_, ?_⟩
          · rw [hrun, List.append_assoc]
            rfl
          · intro i hi
            rw [hbefore i (by omega), hset i (by omega)]
          · intro arg harg i hi hi'
            rcases List.mem_cons.mp harg with rfl | harg
            · rw [hbefore i (by omega), hset i (by omega)]
            · have hlater := argsFrom_ge _ _ _ arg (List.mem_of_mem_take harg)
              rw [hsame arg harg i hi hi', hset i (by omega)]
        · rintro ⟨arg, harg, hout⟩
          rcases List.mem_cons.mp harg with rfl | harg
          · omega
          · exact hbad ⟨arg, harg, hout⟩
      · have hput : put buf (first.1 + first.2) 0 = none := if_neg hin
        rw [hput, Option.bind_none]
        refine ⟨fun hall => absurd (hall first List.mem_cons_self) hin, fun _ => rfl⟩

/-! ## The call -/

/-- The call ends and stays in the buffer; it returns the first arguments of the text, each of them
inside the buffer and with its bytes unchanged. -/
def Splits (buf : List Byte) (maxArgs : Nat) : Prop :=
  ∃ buf' args, buf2args buf maxArgs = some (buf', args) ∧ buf'.length = buf.length ∧
    args = (arguments buf).take maxArgs ∧
    ∀ arg ∈ args, arg.1 + arg.2 ≤ buf.length ∧ SameAt buf buf' arg

/-- The text is split as it should be exactly when none of the arguments that are asked for goes to
the end of the buffer. -/
theorem buf2args_splits_iff (buf : List Byte) (maxArgs : Nat) :
    Splits buf maxArgs ↔
      ∀ arg ∈ (arguments buf).take maxArgs, arg.1 + arg.2 < buf.length := by
  unfold Splits
  by_cases hempty : buf.length = 0 ∨ maxArgs = 0
  · have hrun : buf2args buf maxArgs = some (buf, []) := if_pos hempty
    have hnone : (arguments buf).take maxArgs = [] := by
      rcases hempty with hbuf | hmax
      · unfold arguments
        rw [hbuf, argsFrom, List.take_nil]
      · rw [hmax, List.take_zero]
    rw [hnone]
    refine iff_of_true ⟨buf, [], hrun, rfl, rfl, fun arg harg => ?_⟩ fun arg harg => ?_
    · cases harg
    · cases harg
  · have hrun : buf2args buf maxArgs = argsLoop maxArgs (buf.length + 1) buf 0 buf.length [] :=
      if_neg hempty
    have hloop := argsLoop_eq maxArgs buf.length buf 0 [] (Nat.zero_le _)
      (Nat.le_refl _) (Nat.zero_le _)
    rw [List.drop_zero, List.length_nil, Nat.sub_zero, Nat.sub_zero, ← hrun] at hloop
    rcases hloop with ⟨hok, hbad⟩
    constructor
    · rintro ⟨buf', args, hcall, -⟩ arg harg
      by_contra hout
      rw [hbad ⟨arg, harg, by omega⟩] at hcall
      cases hcall
    · intro hall
      rcases hok hall with ⟨buf', hcall, hlen, -, hsame⟩
      rw [List.nil_append] at hcall
      exact ⟨buf', _, hcall, hlen, rfl, fun arg harg =>
        ⟨Nat.le_of_lt (hall arg harg), hsame arg harg⟩⟩

/-- One argument that fills the buffer: the zero is written behind it. -/
theorem buf2args_not_splits : ¬ Splits [chr 'a'] 1 := by
  rintro ⟨buf', args, hcall, -⟩
  have hnone : buf2args [chr 'a'] 1 = none := by decide
  rw [hnone] at hcall
  cases hcall

/-- Blanks before the first argument, a quoted one with a blank in it, and one right behind it. -/
example : buf2args [chr ' ', quote, chr 'a', 0x09#8, quote, chr 'b', chr ' '] 8 =
    some ([chr ' ', quote, chr 'a', 0x09#8, 0, chr 'b', 0], [(2, 2), (5, 1)]) := by decide

end BufArgs
