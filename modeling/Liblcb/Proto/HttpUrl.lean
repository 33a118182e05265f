import Liblcb.Lib.Buffer
import Liblcb.Lib.Progress
import Liblcb.Proto.Http
import Mathlib.Tactic.IntervalCases

/-!
# Percent encoding

`http_url_decode` of `proto/http.c` and `ustrh2u32` of `utils/strh2num.h`.  The memory is one block
and a pointer into it is an index, so the input and the buffer may be the same bytes; an access
outside the block has no outcome.
-/

namespace Http

open Mem Buffer Progress

/-- One byte of `STRH2NUM`: bytes that are no digits are skipped. -/
def strh2numStep (res : BitVec 32) (c : Byte) : BitVec 32 :=
  if chr '0' ≤ c ∧ c ≤ chr '9' then res <<< 4 ||| (c - chr '0').setWidth 32
  else if chr 'a' ≤ c ∧ c ≤ chr 'f' then res <<< 4 ||| (c - (chr 'a' - 10)).setWidth 32
  else if chr 'A' ≤ c ∧ c ≤ chr 'F' then res <<< 4 ||| (c - (chr 'A' - 10)).setWidth 32
  else res

def ustrh2u32 (str : List Byte) : BitVec 32 := str.foldl strh2numStep 0

/-- The locals of the loop. -/
structure UrlSt where
  mem : List Byte
  url : Nat
  bufPos : Nat

/-- One turn of the loop, with the step of the loop itself. -/
def decodeStep (urlMax bufMax : Nat) (s : UrlSt) : Option (Next UrlSt UrlSt) :=
  if s.url < urlMax ∧ s.bufPos < bufMax then do
    let c ← s.mem[s.url]?
    if c = chr '%' then
      if s.url + 3 ≤ urlMax then
        let hi ← s.mem[s.url + 1]?
        let lo ← s.mem[s.url + 2]?
        let mem ← put s.mem s.bufPos ((ustrh2u32 [hi, lo]).setWidth 8)
        return .again ⟨mem, s.url + 3, s.bufPos + 1⟩
      -- nothing is written for an escape that is cut off
      else return .again ⟨s.mem, s.url + 3, s.bufPos + 1⟩
    else
      let mem ← put s.mem s.bufPos (if c = chr '+' then sp else c)
      return .again ⟨mem, s.url + 1, s.bufPos + 1⟩
  else some (.done s)

/-- `http_url_decode`: what it returns, and the memory then. -/
def httpUrlDecode (mem : List Byte) (url : Option Nat) (urlSize : Nat) (buf : Option Nat)
    (bufSize : Nat) : Option (Nat × List Byte) :=
  match url, buf with
  | some url, some buf =>
    if urlSize = 0 ∨ bufSize = 0 then some (0, mem)
    else do
      let urlMax := url + urlSize
      let bufMax := buf + (bufSize - 1)
      let s ← run (decodeStep urlMax bufMax) (fun s => urlMax - s.url) ⟨mem, url, buf⟩
      let mem ← put s.mem s.bufPos 0
      return (s.bufPos - buf, mem)
  | _, _ => some (0, mem)

/-!
# What the decoder writes

The text decides what is written, up to an escape that is cut off by the end of the text: its byte
is left as it was.  A text without one is decoded to what it encodes.
-/

def decodedTo : Nat → List Byte → List (Option Byte)
  | 0, _ => []
  | _ + 1, [] => []
  | room + 1, c :: text =>
    if c = chr '%' then
      if 2 ≤ text.length then
        some ((ustrh2u32 (text.take 2)).setWidth 8) :: decodedTo room (text.drop 2)
      else [none]
    else some (if c = chr '+' then sp else c) :: decodedTo room text

/-- The memory with the bytes written from `pos` on. -/
def patch (mem : List Byte) (pos : Nat) : List (Option Byte) → List Byte
  | [] => mem
  | some b :: os => patch (mem.set pos b) (pos + 1) os
  | none :: os => patch mem (pos + 1) os

variable {mem text : List Byte} {os : List (Option Byte)} {url pos urlMax bufMax room i : Nat}

@[simp] theorem length_patch : (patch mem pos os).length = mem.length := by
  induction os generalizing mem pos with
  | nil => rfl
  | cons o os ih =>
    cases o with
    | none => rw [patch, ih]
    | some b => rw [patch, ih, List.length_set]

theorem getElem?_patch_of_lt (h : i < pos) : (patch mem pos os)[i]? = mem[i]? := by
  induction os generalizing mem pos with
  | nil => rfl
  | cons o os ih =>
    cases o with
    | none => rw [patch, ih (by omega)]
    | some b => rw [patch, ih (by omega), List.getElem?_set_ne (by omega)]

theorem getElem?_patch_of_ge (h : pos + os.length ≤ i) : (patch mem pos os)[i]? = mem[i]? := by
  induction os generalizing mem pos with
  | nil => rfl
  | cons o os ih =>
    rw [List.length_cons] at h
    cases o with
    | none => rw [patch, ih (by omega)]
    | some b => rw [patch, ih (by omega), List.getElem?_set_ne (by omega)]

theorem getElem?_patch {o : Option Byte} (hfit : pos + os.length ≤ mem.length)
    (h : os[i]? = some o) : (patch mem pos os)[pos + i]? = o.or mem[pos + i]? := by
  induction os generalizing mem pos i with
  | nil => cases h
  | cons c os ih =>
    rw [List.length_cons] at hfit
    cases i with
    | zero =>
      cases h
      cases o with
      | none =>
        rw [patch, getElem?_patch_of_lt (by omega)]
        rfl
      | some b =>
        rw [patch, getElem?_patch_of_lt (by omega), Nat.add_zero,
          List.getElem?_set_self (by omega)]
        rfl
    | succ i =>
      rw [List.getElem?_cons_succ] at h
      have hi : pos + (i + 1) = pos + 1 + i := by omega
      cases c with
      | none => rw [patch, hi, ih (by omega) h]
      | some b =>
        rw [patch, hi, ih (by rw [List.length_set]; omega) h, List.getElem?_set_ne (by omega)]

/-! ## The text -/

variable {c hi lo : Byte}

theorem decodedTo_nil (room : Nat) : decodedTo room [] = [] := by
  cases room with
  | zero => rfl
  | succ room => rfl

theorem decodedTo_plain (hc : c ≠ chr '%') : decodedTo (room + 1) (c :: text) =
    some (if c = chr '+' then sp else c) :: decodedTo room text := by
  rw [decodedTo, if_neg hc]

theorem decodedTo_escape : decodedTo (room + 1) (chr '%' :: hi :: lo :: text) =
    some ((ustrh2u32 [hi, lo]).setWidth 8) :: decodedTo room text := by
  rw [decodedTo, if_pos rfl, if_pos (by rw [List.length_cons, List.length_cons]; omega)]
  rfl

theorem decodedTo_cut (h : text.length < 2) :
    decodedTo (room + 1) (chr '%' :: text) = [none] := by
  rw [decodedTo, if_pos rfl, if_neg (by omega)]

theorem length_decodedTo (room : Nat) (text : List Byte) :
    (decodedTo room text).length ≤ room := by
  induction room generalizing text with
  | zero => exact Nat.le_refl _
  | succ room ih =>
    cases text with
    | nil => exact Nat.zero_le _
    | cons c text =>
      by_cases hc : c = chr '%'
      · rw [decodedTo, if_pos hc]
        split_ifs
        · -- an escape takes three bytes and leaves one
          exact Nat.succ_le_succ (ih (text.drop 2))
        · exact Nat.succ_le_succ (Nat.zero_le _)
      · rw [decodedTo_plain hc]
        exact Nat.succ_le_succ (ih text)

/-- The text from `url` on. -/
def textAt (mem : List Byte) (url urlMax : Nat) : List Byte := (mem.drop url).take (urlMax - url)

theorem length_textAt (hmem : urlMax ≤ mem.length) :
    (textAt mem url urlMax).length = urlMax - url := by
  rw [textAt, List.length_take, List.length_drop]
  omega

theorem textAt_of_ge (h : urlMax ≤ url) : textAt mem url urlMax = [] := by
  rw [textAt, Nat.sub_eq_zero_of_le h, List.take_zero]

theorem textAt_cons (h : url < urlMax) (hmem : urlMax ≤ mem.length) :
    ∃ c, mem[url]? = some c ∧ textAt mem url urlMax = c :: textAt mem (url + 1) urlMax := by
  refine ⟨mem[url], List.getElem?_eq_getElem (by omega), ?_⟩
  rw [textAt, textAt, List.drop_eq_getElem_cons (by omega),
    show urlMax - url = urlMax - (url + 1) + 1 by omega, List.take_succ_cons]

theorem textAt_set {b : Byte} (h : pos < url ∨ urlMax ≤ pos) :
    textAt (mem.set pos b) url urlMax = textAt mem url urlMax := by
  apply List.ext_getElem?
  intro i
  rw [textAt, textAt, List.getElem?_take, List.getElem?_take]
  by_cases hi : i < urlMax - url
  · rw [if_pos hi, if_pos hi, List.getElem?_drop, List.getElem?_drop,
      List.getElem?_set_ne (by omega)]
  · rw [if_neg hi, if_neg hi]

/-! ## The loop -/

/-- The places to write to are not read any more. -/
def Clear (url pos urlMax : Nat) : Prop := pos ≤ url ∨ urlMax ≤ pos

theorem decode_loop (hmem : urlMax ≤ mem.length) (hbuf : bufMax ≤ mem.length)
    (hclear : Clear url pos urlMax) : ∀ {fuel : Nat}, urlMax - url < fuel →
    ∃ u, loop (decodeStep urlMax bufMax) fuel ⟨mem, url, pos⟩ =
      some ⟨patch mem pos (decodedTo (bufMax - pos) (textAt mem url urlMax)), u,
        pos + (decodedTo (bufMax - pos) (textAt mem url urlMax)).length⟩ := by
  intro fuel
  induction fuel generalizing mem url pos with
  | zero => exact fun h => absurd h (Nat.not_lt_zero _)
  | succ fuel ih =>
    intro hfuel
    by_cases hgo : url < urlMax ∧ pos < bufMax
    · obtain ⟨c, hc, htext⟩ := textAt_cons hgo.1 hmem
      have hroom : bufMax - pos = bufMax - (pos + 1) + 1 := by omega
      have hput : ∀ b, put mem pos b = some (mem.set pos b) := fun b => if_pos (by omega)
      -- what follows sees the same text
      have hset : ∀ b u, url < u → textAt (mem.set pos b) u urlMax = textAt mem u urlMax := by
        intro b u hu
        refine textAt_set ?_
        rcases hclear with hle | hge
        · exact .inl (by omega)
        · exact .inr hge
      have hnext : ∀ u, url < u → Clear u (pos + 1) urlMax := by
        intro u hu
        rcases hclear with hle | hge
        · exact .inl (by omega)
        · exact .inr (by omega)
      by_cases hpct : c = chr '%'
      · by_cases hroom3 : url + 3 ≤ urlMax
        · obtain ⟨hi, hhi, htext1⟩ := textAt_cons (by omega : url + 1 < urlMax) hmem
          obtain ⟨lo, hlo, htext2⟩ := textAt_cons (by omega : url + 1 + 1 < urlMax) hmem
          have hstep : decodeStep urlMax bufMax ⟨mem, url, pos⟩ = some (.again
              ⟨mem.set pos ((ustrh2u32 [hi, lo]).setWidth 8), url + 3, pos + 1⟩) := by
            rw [decodeStep, if_pos hgo]
            dsimp only
            rw [hc, Option.bind_eq_bind, Option.bind_some, if_pos hpct, if_pos hroom3, hhi,
              Option.bind_eq_bind, Option.bind_some, hlo, Option.bind_some, hput]
            rfl
          obtain ⟨u, hu⟩ := @ih (mem.set pos ((ustrh2u32 [hi, lo]).setWidth 8))
            (url + 3) (pos + 1) (by rwa [List.length_set])
            (by rwa [List.length_set]) (hnext _ (by omega)) (by omega)
          rw [hset _ _ (by omega)] at hu
          refine ⟨u, ?_⟩
          rw [loop_again hstep, hu, htext, htext1, htext2, hpct, hroom, decodedTo_escape, patch,
            List.length_cons, Nat.add_right_comm pos, Nat.add_assoc pos]
        · -- the text ends inside the escape, and so does the loop
          have hshort : (textAt mem (url + 1) urlMax).length < 2 := by
            rw [length_textAt hmem]
            omega
          have hstep : decodeStep urlMax bufMax ⟨mem, url, pos⟩ =
              some (.again ⟨mem, url + 3, pos + 1⟩) := by
            rw [decodeStep, if_pos hgo]
            dsimp only
            rw [hc, Option.bind_eq_bind, Option.bind_some, if_pos hpct, if_neg hroom3]
            rfl
          obtain ⟨u, hu⟩ := @ih mem (url + 3) (pos + 1) hmem hbuf (hnext _ (by omega))
            (by omega)
          rw [textAt_of_ge (by omega), decodedTo_nil] at hu
          refine ⟨u, ?_⟩
          rw [loop_again hstep, hu, htext, hpct, hroom, decodedTo_cut hshort]
          rfl
      · have hstep : decodeStep urlMax bufMax ⟨mem, url, pos⟩ = some (.again
            ⟨mem.set pos (if c = chr '+' then sp else c), url + 1, pos + 1⟩) := by
          rw [decodeStep, if_pos hgo]
          dsimp only
          rw [hc, Option.bind_eq_bind, Option.bind_some, if_neg hpct, hput]
          rfl
        obtain ⟨u, hu⟩ := @ih (mem.set pos (if c = chr '+' then sp else c))
          (url + 1) (pos + 1) (by rwa [List.length_set]) (by rwa [List.length_set])
          (hnext _ (by omega)) (by omega)
        rw [hset _ _ (by omega)] at hu
        refine ⟨u, ?_⟩
        rw [loop_again hstep, hu, htext, hroom, decodedTo_plain hpct, patch, List.length_cons,
          Nat.add_right_comm pos, Nat.add_assoc pos]
    · have hstep : decodeStep urlMax bufMax ⟨mem, url, pos⟩ = some (.done ⟨mem, url, pos⟩) := by
        rw [decodeStep, if_neg hgo]
      have hnone : decodedTo (bufMax - pos) (textAt mem url urlMax) = [] := by
        rw [not_and_or, Nat.not_lt, Nat.not_lt] at hgo
        rcases hgo with hge | hge
        · rw [textAt_of_ge hge, decodedTo_nil]
        · rw [Nat.sub_eq_zero_of_le hge, decodedTo]
      rw [loop_done hstep, hnone]
      exact ⟨url, rfl⟩

/-! ## The call -/

variable {urlSize buf bufSize : Nat}

def fill (os : List (Option Byte)) (prev : List Byte) : List Byte :=
  List.zipWith (fun o b => o.getD b) os prev

theorem drop_patch (hfit : pos + os.length ≤ mem.length) :
    ((patch mem pos os).drop pos).take os.length = fill os (mem.drop pos) := by
  apply List.ext_getElem?
  intro i
  rw [List.getElem?_take, fill, List.getElem?_zipWith, List.getElem?_drop, List.getElem?_drop]
  by_cases hi : i < os.length
  · have hget := List.getElem?_eq_getElem hi
    have hmem := List.getElem?_eq_getElem (by omega : pos + i < mem.length)
    rw [if_pos hi, getElem?_patch hfit hget, hget, hmem]
    cases os[i] with
    | none => rfl
    | some b => rfl
  · rw [if_neg hi, List.getElem?_eq_none (by omega)]

theorem httpUrlDecode_eq (hurl : url + urlSize ≤ mem.length) (hbuf : buf + bufSize ≤ mem.length)
    (hclear : Clear url buf (url + urlSize)) (hus : urlSize ≠ 0) (hbs : bufSize ≠ 0) :
    httpUrlDecode mem (some url) urlSize (some buf) bufSize =
      some ((decodedTo (bufSize - 1) (textAt mem url (url + urlSize))).length,
        (patch mem buf (decodedTo (bufSize - 1) (textAt mem url (url + urlSize)))).set
          (buf + (decodedTo (bufSize - 1) (textAt mem url (url + urlSize))).length) 0) := by
  obtain ⟨u, hrun⟩ := @decode_loop mem url buf (url + urlSize) (buf + (bufSize - 1)) hurl
    (by omega) hclear (url + urlSize - url + 1) (Nat.lt_succ_self _)
  rw [show buf + (bufSize - 1) - buf = bufSize - 1 from Nat.add_sub_cancel_left _ _] at hrun
  have hlen := length_decodedTo (bufSize - 1) (textAt mem url (url + urlSize))
  have hnot : ¬ (urlSize = 0 ∨ bufSize = 0) := fun h => h.elim hus hbs
  -- the loop runs with as much fuel as there are bytes of text
  have hloop : run (decodeStep (url + urlSize) (buf + (bufSize - 1)))
      (fun s => url + urlSize - s.url) ⟨mem, url, buf⟩ = _ := hrun
  generalize decodedTo (bufSize - 1) (textAt mem url (url + urlSize)) = os at hloop hlen ⊢
  have hput : put (patch mem buf os) (buf + os.length) 0 =
      some ((patch mem buf os).set (buf + os.length) 0) := by
    rw [put, if_pos (by rw [length_patch]; omega)]
  rw [httpUrlDecode, if_neg hnot]
  dsimp only
  rw [hloop, Option.bind_eq_bind, Option.bind_some, hput]
  show some (buf + os.length - buf, _) = _
  rw [Nat.add_sub_cancel_left]

theorem output_eq (hurl : url + urlSize ≤ mem.length) (hbuf : buf + bufSize ≤ mem.length)
    (hclear : Clear url buf (url + urlSize)) (hbs : bufSize ≠ 0) :
    ∃ mem', httpUrlDecode mem (some url) urlSize (some buf) bufSize =
        some ((decodedTo (bufSize - 1) (textAt mem url (url + urlSize))).length, mem') ∧
      (mem'.drop buf).take (decodedTo (bufSize - 1) (textAt mem url (url + urlSize))).length =
        fill (decodedTo (bufSize - 1) (textAt mem url (url + urlSize))) (mem.drop buf) ∧
      mem'.length = mem.length ∧
      ∀ i, i < buf ∨ buf + bufSize ≤ i → mem'[i]? = mem[i]? := by
  by_cases hus : urlSize = 0
  · have hnil : textAt mem url (url + urlSize) = [] := textAt_of_ge (by omega)
    refine ⟨mem, ?_, ?_, rfl, fun _ _ => rfl⟩
    · rw [hnil, decodedTo_nil, httpUrlDecode, if_pos (.inl hus)]
      rfl
    · rw [hnil, decodedTo_nil]
      rfl
  · have hlen := length_decodedTo (bufSize - 1) (textAt mem url (url + urlSize))
    refine ⟨_, httpUrlDecode_eq hurl hbuf hclear hus hbs, ?_, ?_, ?_⟩
    · generalize decodedTo (bufSize - 1) (textAt mem url (url + urlSize)) = os at hlen
      rw [← drop_patch (by omega)]
      -- the end marker stands behind these bytes
      apply List.ext_getElem?
      intro i
      rw [List.getElem?_take, List.getElem?_take]
      by_cases hi : i < os.length
      · rw [if_pos hi, if_pos hi, List.getElem?_drop, List.getElem?_drop,
          List.getElem?_set_ne (by omega)]
      · rw [if_neg hi, if_neg hi]
    · rw [List.length_set, length_patch]
    · intro i hi
      rw [List.getElem?_set_ne (by omega)]
      -- nothing is written outside the buffer
      rcases hi with hlt | hge
      · exact getElem?_patch_of_lt hlt
      · exact getElem?_patch_of_ge (by omega)

/-! ## Decoding what was encoded -/

/-- A hex digit and its value. -/
inductive HexDigit : Byte → Nat → Prop
  | dec {d : Nat} (h : d < 10) : HexDigit (chr '0' + BitVec.ofNat 8 d) d
  | lower {d : Nat} (h : d < 6) : HexDigit (chr 'a' + BitVec.ofNat 8 d) (10 + d)
  | upper {d : Nat} (h : d < 6) : HexDigit (chr 'A' + BitVec.ofNat 8 d) (10 + d)

/-- A text that stands for the bytes: any byte may be escaped, `%` and `+` are, and a space may be
a `+`. -/
inductive Encoded : List Byte → List Byte → Prop
  | nil : Encoded [] []
  | plain {b : Byte} {x y : List Byte} (hpct : b ≠ chr '%') (hplus : b ≠ chr '+')
      (h : Encoded x y) : Encoded (b :: x) (b :: y)
  | space {x y : List Byte} (h : Encoded x y) : Encoded (sp :: x) (chr '+' :: y)
  | escape {b hi lo : Byte} {x y : List Byte} (hhi : HexDigit hi (b.toNat / 16))
      (hlo : HexDigit lo (b.toNat % 16)) (h : Encoded x y) :
      Encoded (b :: x) (chr '%' :: hi :: lo :: y)

theorem HexDigit.step {c : Byte} {d : Nat} (h : HexDigit c d) (res : BitVec 32) :
    strh2numStep res c = res <<< 4 ||| BitVec.ofNat 32 d := by
  cases h with
  | @dec d h => interval_cases d <;> rfl
  | @lower d h => interval_cases d <;> rfl
  | @upper d h => interval_cases d <;> rfl

theorem nibbles : ∀ b : Byte, (((0#32 <<< 4 ||| BitVec.ofNat 32 (b.toNat / 16)) <<< 4) |||
    BitVec.ofNat 32 (b.toNat % 16)).setWidth 8 = b := by
  decide

theorem ustrh2u32_hex {b hi lo : Byte} (hhi : HexDigit hi (b.toNat / 16))
    (hlo : HexDigit lo (b.toNat % 16)) : (ustrh2u32 [hi, lo]).setWidth 8 = b := by
  show (strh2numStep (strh2numStep 0 hi) lo).setWidth 8 = b
  rw [hhi.step, hlo.step]
  exact nibbles b

theorem decodedTo_encoded {x y : List Byte} (h : Encoded x y) :
    ∀ {room : Nat}, x.length ≤ room → decodedTo room y = x.map some := by
  induction h with
  | nil => exact fun _ => decodedTo_nil _
  | @plain b x y hpct hplus _ ih =>
    intro room hroom
    cases room with
    | zero => exact absurd hroom (Nat.not_succ_le_zero _)
    | succ room =>
      rw [decodedTo_plain hpct, if_neg hplus, ih (Nat.le_of_succ_le_succ hroom), List.map_cons]
  | @space x y _ ih =>
    intro room hroom
    cases room with
    | zero => exact absurd hroom (Nat.not_succ_le_zero _)
    | succ room =>
      rw [decodedTo_plain (by decide), if_pos rfl, ih (Nat.le_of_succ_le_succ hroom),
        List.map_cons]
  | @escape b hi lo x y hhi hlo _ ih =>
    intro room hroom
    cases room with
    | zero => exact absurd hroom (Nat.not_succ_le_zero _)
    | succ room =>
      rw [decodedTo_escape, ih (Nat.le_of_succ_le_succ hroom), List.map_cons,
        ustrh2u32_hex hhi hlo]

theorem fill_map_some : ∀ {x prev : List Byte}, x.length ≤ prev.length → fill (x.map some) prev = x
  | [], _, _ => rfl
  | b :: x, [], h => absurd h (Nat.not_succ_le_zero _)
  | b :: x, c :: prev, h => by
    rw [List.map_cons, fill, List.zipWith_cons_cons, ← fill,
      fill_map_some (Nat.le_of_succ_le_succ h)]
    rfl

theorem decode_encoded {x y : List Byte} (h : Encoded x y) (hroom : x.length < bufSize)
    (htext : textAt mem url (url + urlSize) = y) (hurl : url + urlSize ≤ mem.length)
    (hbuf : buf + bufSize ≤ mem.length) (hclear : Clear url buf (url + urlSize)) :
    ∃ mem', httpUrlDecode mem (some url) urlSize (some buf) bufSize = some (x.length, mem') ∧
      (mem'.drop buf).take x.length = x := by
  obtain ⟨mem', hrun, hout, -, -⟩ := output_eq hurl hbuf hclear (by omega)
  rw [htext, decodedTo_encoded h (by omega : x.length ≤ bufSize - 1), List.length_map] at hrun hout
  refine ⟨mem', hrun, hout.trans (fill_map_some ?_)⟩
  rw [List.length_drop]
  omega

/-! ## Escapes that are cut off -/

/-- What the decoder takes at a time. -/
def IsUnit (u : List Byte) : Prop := (∃ c, c ≠ chr '%' ∧ u = [c]) ∨ ∃ hi lo, u = [chr '%', hi, lo]

/-- Behind fewer than `room` units the text ends inside an escape. -/
def CutEscape (text : List Byte) (room : Nat) : Prop :=
  ∃ (units : List (List Byte)) (rest : List Byte), (∀ u ∈ units, IsUnit u) ∧
    units.length < room ∧ rest.length < 2 ∧ text = units.flatten ++ chr '%' :: rest

theorem CutEscape.cons {u : List Byte} (hu : IsUnit u) (h : CutEscape text room) :
    CutEscape (u ++ text) (room + 1) := by
  obtain ⟨units, rest, hunits, hlen, hrest, rfl⟩ := h
  refine ⟨u :: units, rest, List.forall_mem_cons.mpr ⟨hu, hunits⟩, Nat.succ_lt_succ hlen, hrest, ?_⟩
  rw [List.flatten_cons, List.append_assoc]

theorem two_of_length (h : 2 ≤ text.length) : ∃ hi lo rest, text = hi :: lo :: rest := by
  cases text with
  | nil => exact absurd h (by decide)
  | cons hi text =>
    cases text with
    | nil => exact absurd h (Nat.not_succ_le_self 1)
    | cons lo text => exact ⟨hi, lo, text, rfl⟩

theorem none_mem_decodedTo : ∀ {room : Nat} {text : List Byte},
    none ∈ decodedTo room text ↔ CutEscape text room
  | 0, text => by
    refine iff_of_false (fun h => by cases h) ?_
    rintro ⟨units, rest, -, hlen, -⟩
    exact absurd hlen (Nat.not_lt_zero _)
  | room + 1, [] => by
    refine iff_of_false (fun h => by cases h) ?_
    rintro ⟨units, rest, -, -, -, htext⟩
    rw [eq_comm, List.append_eq_nil_iff] at htext
    exact absurd htext.2 (List.cons_ne_nil _ _)
  | room + 1, c :: text => by
    by_cases hc : c = chr '%'
    · subst hc
      by_cases hshort : text.length < 2
      · rw [decodedTo_cut hshort]
        exact iff_of_true List.mem_cons_self
          ⟨[], text, fun u hu => absurd hu List.not_mem_nil, Nat.succ_pos _, hshort, rfl⟩
      · obtain ⟨hi, lo, text, rfl⟩ := two_of_length (Nat.not_lt.mp hshort)
        rw [decodedTo_escape, List.mem_cons, or_iff_right (fun h => by cases h),
          none_mem_decodedTo]
        refine ⟨fun h => h.cons (.inr ⟨hi, lo, rfl⟩), ?_⟩
        rintro ⟨units, rest, hunits, hlen, hrest, htext⟩
        cases units with
        | nil =>
          -- the rest would be too long
          rw [List.flatten_nil, List.nil_append, List.cons.injEq] at htext
          rw [← htext.2] at hrest
          exact absurd hrest hshort
        | cons u units =>
          obtain ⟨hu, hunits'⟩ := List.forall_mem_cons.mp hunits
          rcases hu with ⟨c, hc, rfl⟩ | ⟨a, b, rfl⟩
          · rw [List.flatten_cons, List.singleton_append, List.cons_append,
              List.cons.injEq] at htext
            exact absurd htext.1.symm hc
          · have htail : [chr '%', hi, lo] ++ text =
                [chr '%', a, b] ++ (units.flatten ++ chr '%' :: rest) := by
              rw [← List.append_assoc]
              exact htext
            have hinj := List.append_inj_right htail rfl
            exact ⟨units, rest, hunits', Nat.lt_of_succ_lt_succ hlen, hrest, hinj⟩
    · rw [decodedTo_plain hc, List.mem_cons, or_iff_right (fun h => by cases h),
        none_mem_decodedTo]
      refine ⟨fun h => h.cons (.inl ⟨c, hc, rfl⟩), ?_⟩
      rintro ⟨units, rest, hunits, hlen, hrest, htext⟩
      cases units with
      | nil =>
        rw [List.flatten_nil, List.nil_append, List.cons.injEq] at htext
        exact absurd htext.1 hc
      | cons u units =>
        obtain ⟨hu, hunits'⟩ := List.forall_mem_cons.mp hunits
        rcases hu with ⟨d, hd, rfl⟩ | ⟨a, b, rfl⟩
        · rw [List.flatten_cons, List.singleton_append, List.cons_append,
            List.cons.injEq] at htext
          exact ⟨units, rest, hunits', Nat.lt_of_succ_lt_succ hlen, hrest, htext.2⟩
        · rw [List.flatten_cons, List.cons_append, List.cons_append, List.cons.injEq] at htext
          exact absurd htext.1 hc

/-- What the call returns for a text and a buffer with old contents: the length and the bytes. -/
def output (text prev : List Byte) : Option (Nat × List Byte) :=
  (httpUrlDecode (text ++ prev) (some 0) text.length (some text.length) prev.length).map
    fun r => (r.1, (r.2.drop text.length).take r.1)

/-- The old contents of a buffer of that size make no difference. -/
def Independent (text : List Byte) (bufSize : Nat) : Prop :=
  ∀ prev₁ prev₂ : List Byte, prev₁.length = bufSize → prev₂.length = bufSize →
    output text prev₁ = output text prev₂

theorem output_fill {prev : List Byte} (hprev : prev ≠ []) : output text prev =
    some ((decodedTo (prev.length - 1) text).length,
      fill (decodedTo (prev.length - 1) text) prev) := by
  have htext : textAt (text ++ prev) 0 (0 + text.length) = text := by
    rw [textAt, List.drop_zero, Nat.sub_zero, Nat.zero_add, List.take_left]
  obtain ⟨mem', hrun, hout, -, -⟩ := @output_eq (text ++ prev) 0 text.length text.length prev.length
    (by rw [List.length_append]; omega) (by rw [List.length_append]) (.inr (by omega))
    (fun h => hprev (List.length_eq_zero_iff.mp h))
  rw [htext] at hrun hout
  rw [List.drop_left] at hout
  rw [output, hrun, Option.map_some, hout]

theorem fill_eq_iff {os : List (Option Byte)} {n : Nat} (hlen : os.length ≤ n) :
    (∀ prev₁ prev₂ : List Byte, prev₁.length = n → prev₂.length = n →
      fill os prev₁ = fill os prev₂) ↔ none ∉ os := by
  constructor
  · intro h hmem
    obtain ⟨i, hi, hnone⟩ := List.getElem_of_mem hmem
    have heq := congrArg (·[i]?) (h (List.replicate n 0) (List.replicate n 1)
      List.length_replicate List.length_replicate)
    have hget := List.getElem?_eq_getElem hi
    rw [hnone] at hget
    rw [fill, fill, List.getElem?_zipWith, List.getElem?_zipWith, hget,
      List.getElem?_replicate_of_lt (by omega), List.getElem?_replicate_of_lt (by omega)] at heq
    exact absurd heq (by decide)
  · intro hnone prev₁ prev₂ h₁ h₂
    apply List.ext_getElem?
    intro i
    rw [fill, fill, List.getElem?_zipWith, List.getElem?_zipWith]
    by_cases hi : i < os.length
    · rw [List.getElem?_eq_getElem hi, List.getElem?_eq_getElem (by omega : i < prev₁.length),
        List.getElem?_eq_getElem (by omega : i < prev₂.length)]
      cases ho : os[i] with
      | none => exact absurd (ho ▸ List.getElem_mem hi) hnone
      | some b => rfl
    · rw [List.getElem?_eq_none (by omega)]

theorem independent_iff (hbs : bufSize ≠ 0) :
    Independent text bufSize ↔ ¬ CutEscape text (bufSize - 1) := by
  have hne : ∀ {prev : List Byte}, prev.length = bufSize → prev ≠ [] := by
    rintro prev hprev rfl
    exact hbs hprev.symm
  have hlen := length_decodedTo (bufSize - 1) text
  rw [← none_mem_decodedTo, ← fill_eq_iff (n := bufSize) (by omega)]
  refine forall_congr' fun prev₁ => forall_congr' fun prev₂ => ?_
  refine forall_congr' fun h₁ => forall_congr' fun h₂ => ?_
  rw [output_fill (hne h₁), output_fill (hne h₂), h₁, h₂, Option.some.injEq, Prod.mk.injEq]
  exact and_iff_right rfl

/-- The decoder undoes every encoding, also in place, writes to the buffer only, and what it gives
is independent of what the buffer held before exactly where it comes to no escape that is cut
off. -/
theorem httpUrlDecode_spec (bufSize : Nat) (hbs : bufSize ≠ 0) :
    (∀ x y mem url buf, Encoded x y → x.length < bufSize →
      textAt mem url (url + y.length) = y → url + y.length ≤ mem.length →
      buf + bufSize ≤ mem.length → Clear url buf (url + y.length) →
      ∃ mem', httpUrlDecode mem (some url) y.length (some buf) bufSize = some (x.length, mem') ∧
        (mem'.drop buf).take x.length = x) ∧
    (∀ mem url urlSize buf, url + urlSize ≤ mem.length → buf + bufSize ≤ mem.length →
      Clear url buf (url + urlSize) →
      ∃ ret mem', httpUrlDecode mem (some url) urlSize (some buf) bufSize = some (ret, mem') ∧
        ret < bufSize ∧ mem'.length = mem.length ∧
        ∀ i, i < buf ∨ buf + bufSize ≤ i → mem'[i]? = mem[i]?) ∧
    ∀ text, Independent text bufSize ↔ ¬ CutEscape text (bufSize - 1) := by
  refine ⟨?_, ?_, fun text => independent_iff hbs⟩
  · intro x y mem url buf h hroom htext hurl hbuf hclear
    exact decode_encoded h hroom htext hurl hbuf hclear
  · intro mem url urlSize buf hurl hbuf hclear
    obtain ⟨mem', hrun, -, hlen, hframe⟩ := output_eq hurl hbuf hclear hbs
    have hle := length_decodedTo (bufSize - 1) (textAt mem url (url + urlSize))
    exact ⟨_, mem', hrun, by omega, hlen, hframe⟩

/-- An escape and a space are decoded over themselves. -/
theorem httpUrlDecode_spec_inPlace :
    ∃ mem', httpUrlDecode [chr '%', chr '4', chr 'b', chr '+'] (some 0) 4 (some 0) 4 =
      some (2, mem') ∧ (mem'.drop 0).take 2 = [0x4b, sp] :=
  (httpUrlDecode_spec 4 (by decide)).1 [0x4b, sp] [chr '%', chr '4', chr 'b', chr '+'] _ 0 0
    (.escape (.dec (d := 4) (by decide)) (.lower (d := 1) (by decide)) (.space .nil))
    (by decide) rfl (by decide) (by decide) (.inl (by decide))

/-- The byte that a lone `%` stands for is whatever the buffer held. -/
theorem httpUrlDecode_not_independent : ¬ Independent [chr '%'] 2 := by
  intro h
  have heq := h [0x41, 0] [0x42, 0] rfl rfl
  rw [output_fill (List.cons_ne_nil _ _), output_fill (List.cons_ne_nil _ _)] at heq
  exact absurd heq (by decide)

end Http
