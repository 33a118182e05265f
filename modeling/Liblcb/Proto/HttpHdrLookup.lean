import Liblcb.Proto.HttpHdrGet
import Mathlib.Data.List.Sort

/-!
# The header lookup over a whole block

`http_hdr_val_get`, `http_hdr_val_get_ex` through `offset_next` and `http_hdr_val_get_count` against
the fields behind the start line.
-/

namespace Http

open Mem

variable {hdr valName : List Byte} {fs : List (List Byte)} {r f : Nat × List Byte}
  {separator fuel pos : Nat}

/-! ## The block -/

/-- The fields behind the start line, with their positions. -/
def fieldsAt (hdr : List Byte) : List (Nat × List Byte) := (linesAt 0 (fields hdr)).tail

def scannedAt (hdr : List Byte) : List (Nat × List Byte) :=
  match memmem crlf hdr with
  | none => []
  | some i => linesAt (i + 2) (fields (hdr.drop (i + 2)))

/-- What the scanner takes for the fields of the block. -/
def scannedRecords (hdr : List Byte) : List (Nat × List Byte) := records (scannedAt hdr)

/-- The fields that have the name. -/
def namedFields (hdr valName : List Byte) : List (Nat × List Byte) :=
  withName valName (fieldsAt hdr)

/-- The lookup goes by the fields with the name: it returns the value of the first one, it goes from
one to the next, and it counts them. -/
structure LookupRight (hdr valName : List Byte) : Prop where
  get : httpHdrValGet hdr valName = some ((namedFields hdr valName).head?.elim (.error .espipe)
    fun f => .ok ((trimmed f).valRet, (trimmed f).valRetSize))
  visit : visitLoop hdr valName (hdr.length + 1) 0 =
    some (.ok ((namedFields hdr valName).map trimmed))
  count : httpHdrValGetCount hdr valName = .ok (namedFields hdr valName).length

/-- The scanner takes the fields with the name for fields, and nothing else, and none of them is
empty at the end of the block. -/
structure Seen (hdr valName : List Byte) : Prop where
  field : ∀ f ∈ fieldsAt hdr, named valName f.2 = true → f ∈ scannedRecords hdr
  record : ∀ r ∈ scannedRecords hdr, named valName r.2 = true → r ∈ fieldsAt hdr
  inside : ∀ f ∈ fieldsAt hdr, named valName f.2 = true → ¬ EndBlank hdr f

theorem scanned_at {a rest : List Byte} (hhdr : hdr = a ++ cr :: lf :: rest)
    (hsome : memmem crlf hdr = some a.length) :
    At hdr a.length (fields rest) ∧ scannedAt hdr = linesAt (a.length + 2) (fields rest) ∧
      scannedRecords hdr = recordsFrom a.length (fields rest) := by
  have hdrop : hdr.drop (a.length + 2) = rest := by
    rw [hhdr, ← List.drop_drop, List.drop_left]
    rfl
  have hscanned : scannedAt hdr = linesAt (a.length + 2) (fields rest) := by
    rw [scannedAt, hsome]
    simp only [hdrop]
  refine ⟨.inl ⟨a, rest, hhdr, rfl, rfl⟩, hscanned, ?_⟩
  rw [scannedRecords, hscanned, recordsFrom]

theorem fieldsAt_sublist (hdr : List Byte) : List.Sublist (fieldsAt hdr) (scannedAt hdr) := by
  rcases memmem_crlf hdr with ⟨hnone, hone⟩ | ⟨a, rest, hhdr, hsome, hfs⟩
  · rw [fieldsAt, hone]
    exact List.nil_sublist _
  · rw [fieldsAt, (scanned_at hhdr hsome).2.1, hfs]
    by_cases hfold : Folded rest
    · rw [if_pos hfold]
      cases hr : fields rest with
      | nil => exact absurd hr (fields_ne_nil rest)
      | cons c cs =>
        have hpos : 0 + (a ++ crlf ++ c).length + 2 = a.length + 2 + c.length + 2 := by
          have hcrlf : crlf.length = 2 := rfl
          rw [List.length_append, List.length_append, hcrlf]
          omega
        rw [prepend, linesAt, linesAt, List.tail_cons, hpos]
        exact List.sublist_cons_self _ _
    · rw [if_neg hfold, linesAt, List.tail_cons, Nat.zero_add]

/-! ## The calls -/

theorem fieldLoop_eq : ∀ {fuel separator : Nat},
    fieldLoop hdr valName fuel separator =
      (foundLoop hdr valName fuel separator).map FieldPlace.separator
  | 0, _ => rfl
  | fuel + 1, separator => by
    rw [fieldLoop, foundLoop]
    cases memChrOff (separator + 2) hdr (chr ':') with
    | none => rfl
    | some colon =>
      simp only [bind, Except.bind]
      cases separatorLoop hdr (hdr.length + 1) (colon + 1) with
      | error e => rfl
      | ok sep =>
        dsimp only
        split_ifs with hcmp
        · rfl
        · exact fieldLoop_eq

theorem httpHdrValGetEx_record (hat : At hdr separator fs) :
    (httpHdrValGetEx hdr valName separator = .error .espipe ∧
      withName valName (recordsFrom separator fs) = []) ∨
    ∃ r post, httpHdrValGetEx hdr valName separator = .ok (fieldEnd r) ∧ At hdr (fieldEnd r) post ∧
      post.length < fs.length ∧ withName valName (recordsFrom separator fs) =
        r :: withName valName (recordsFrom (fieldEnd r) post) := by
  have hspec := @foundLoop_spec _ valName _ _ _ hat hat.length_le
  rcases hat with ⟨pre, s, rfl, rfl, rfl⟩ | ⟨rfl, rfl⟩
  · rw [httpHdrValGetEx, memFindOff_at]
    simp only [fieldLoop_eq]
    rcases hspec with ⟨hrun, hrs⟩ | ⟨r, post, hrun, -, hat', hlt, hrs⟩
    · rw [hrun]
      exact .inl ⟨rfl, hrs⟩
    · rw [hrun]
      exact .inr ⟨r, post, rfl, hat', hlt, hrs⟩
  · refine .inl ⟨?_, rfl⟩
    rw [httpHdrValGetEx, memFindOff_end]

theorem countLoop_record : ∀ {fuel separator ret : Nat} {fs : List (List Byte)},
    At hdr separator fs → fs.length < fuel → countLoop hdr valName fuel separator ret =
      .ok (ret + (withName valName (recordsFrom separator fs)).length)
  | 0, _, _, _, _, h => absurd h (Nat.not_lt_zero _)
  | fuel + 1, separator, ret, fs, hat, hfuel => by
    rw [countLoop]
    rcases @httpHdrValGetEx_record _ valName _ _ hat with
      ⟨hrun, hrs⟩ | ⟨r, post, hrun, hat', hlt, hrs⟩
    · rw [hrun, hrs]
      rfl
    · rw [hrun, hrs]
      dsimp only
      rw [countLoop_record hat' (by omega), List.length_cons, Nat.add_assoc, Nat.add_comm 1]

/-- The calls from the beginning of the block. -/
structure FromStart (hdr valName : List Byte) (rs : List (Nat × List Byte)) : Prop where
  get : httpHdrValGet hdr valName = rs.head?.elim (some (.error .espipe)) fun r =>
    if EndBlank hdr r then none else some (.ok ((trimmed r).valRet, (trimmed r).valRetSize))
  visit : visitLoop hdr valName (hdr.length + 1) 0 =
    if ∃ r ∈ rs, EndBlank hdr r then none else some (.ok (rs.map trimmed))
  count : httpHdrValGetCount hdr valName = .ok rs.length
  stands : ∀ r, rs.head? = some r → StandsIn hdr r

theorem fromStart (hdr valName : List Byte) :
    FromStart hdr valName (withName valName (scannedRecords hdr)) := by
  rcases memmem_crlf hdr with ⟨hnone, -⟩ | ⟨a, rest, hhdr, hsome, -⟩
  · have hrs : scannedRecords hdr = [] := by
      rw [scannedRecords, scannedAt, hnone]
      rfl
    have hfind : memFindOff 0 hdr crlf = none := by
      rw [memFindOff, List.drop_zero, hnone]
      rfl
    rw [hrs]
    refine ⟨?_, ?_, ?_, fun r hr => (by cases hr)⟩
    · rw [httpHdrValGet, httpHdrValGetExRet, hfind]
      rfl
    · rw [visitLoop, httpHdrValGetExRet, hfind, if_neg]
      · rfl
      · rintro ⟨r, hr, -⟩
        exact absurd hr List.not_mem_nil
    · rw [httpHdrValGetCount, countLoop, httpHdrValGetEx, hfind]
      rfl
  · obtain ⟨hat, -, hrs⟩ := scanned_at hhdr hsome
    -- the search from offset 0 and from the first CRLF find the same
    have hfind : memFindOff 0 hdr crlf = memFindOff a.length hdr crlf := by
      rw [memFindOff, List.drop_zero, hsome, hhdr, memFindOff_at, Option.map_some, Nat.zero_add]
    have hstart : httpHdrValGetExRet hdr valName 0 true true =
        httpHdrValGetExRet hdr valName a.length true true := by
      rw [httpHdrValGetExRet, httpHdrValGetExRet, hfind]
    have hstart' : httpHdrValGetEx hdr valName 0 = httpHdrValGetEx hdr valName a.length := by
      rw [httpHdrValGetEx, httpHdrValGetEx, hfind]
    rw [hrs]
    refine ⟨?_, ?_, ?_, ?_⟩
    · rw [httpHdrValGet, hstart]
      rcases @httpHdrValGetExRet_at _ valName _ _ hat with
        ⟨hrun, hnil⟩ | ⟨r, post, hrun, -, -, -, hcons⟩
      · rw [hrun, hnil]
        rfl
      · rw [hrun, hcons, List.head?_cons, Option.elim_some]
        split_ifs
        · rfl
        · rfl
    · have hvisit := @visitLoop_at _ valName (hdr.length + 1) _ _ hat hat.length_le
      rw [← hvisit, visitLoop, visitLoop, hstart]
    · have hcount := @countLoop_record _ valName _ _ 0 _ hat hat.length_le
      rw [Nat.zero_add] at hcount
      rw [httpHdrValGetCount, ← hcount, countLoop, countLoop, hstart']
    · intro r hr
      rcases @httpHdrValGetExRet_at _ valName _ _ hat with
        ⟨-, hnil⟩ | ⟨r', post, -, hstands, -, -, hcons⟩
      · rw [hnil] at hr
        cases hr
      · rw [hcons, List.head?_cons, Option.some.injEq] at hr
        rwa [← hr]

/-! ## Records and fields -/

theorem mem_withName {rs : List (Nat × List Byte)} :
    r ∈ withName valName rs ↔ r ∈ rs ∧ named valName r.2 = true := List.mem_filter

theorem map_eq_map_inj {α β : Type} {g : α → β} : ∀ {as bs : List α},
    (∀ a ∈ as, ∀ b ∈ bs, g a = g b → a = b) → as.map g = bs.map g → as = bs
  | [], [], _, _ => rfl
  | [], b :: bs, _, h => by cases h
  | a :: as, [], _, h => by cases h
  | a :: as, b :: bs, hinj, h => by
    obtain ⟨hab, hrest⟩ := List.cons.inj h
    have ih := map_eq_map_inj (fun a' ha' b' hb' =>
      hinj a' (List.mem_cons_of_mem a ha') b' (List.mem_cons_of_mem b hb')) hrest
    rw [hinj a List.mem_cons_self b List.mem_cons_self hab, ih]

theorem scannedAt_lines (hdr : List Byte) : ∃ pos fs, scannedAt hdr = linesAt pos fs := by
  rcases memmem_crlf hdr with ⟨hnone, -⟩ | ⟨a, rest, hhdr, hsome, -⟩
  · exact ⟨0, [], by rw [scannedAt, hnone]; rfl⟩
  · exact ⟨_, _, (scanned_at hhdr hsome).2.1⟩

theorem record_eq_field (hr : r ∈ withName valName (scannedRecords hdr))
    (hf : f ∈ namedFields hdr valName) (h : trimmed r = trimmed f) : r = f := by
  obtain ⟨pos, fs, hlines⟩ := scannedAt_lines hdr
  obtain ⟨hmemr, hnr⟩ := mem_withName.mp hr
  obtain ⟨hmemf, hnf⟩ := mem_withName.mp hf
  have hline := (fieldsAt_sublist hdr).subset hmemf
  rw [scannedRecords, hlines] at hmemr
  rw [hlines] at hline
  exact records_eq_line hmemr hline hnr hnf (congrArg HdrVal.offsetNext h)

def Before (l m : Nat × List Byte) : Prop := l.1 < m.1

instance : Std.Irrefl Before := ⟨fun l h => Nat.lt_irrefl l.1 h⟩

instance : Std.Antisymm Before := ⟨fun _ _ h h' => absurd h (Nat.lt_asymm h')⟩

theorem scannedRecords_before (hdr : List Byte) : (scannedRecords hdr).Pairwise Before := by
  obtain ⟨pos, fs, hlines⟩ := scannedAt_lines hdr
  rw [scannedRecords, hlines]
  exact records_pairwise

theorem fieldsAt_before (hdr : List Byte) : (fieldsAt hdr).Pairwise Before := by
  obtain ⟨pos, fs, hlines⟩ := scannedAt_lines hdr
  apply List.Pairwise.sublist (fieldsAt_sublist hdr)
  rw [hlines]
  apply List.Pairwise.imp _ linesAt_pairwise
  intro l m h
  have hle : l.1 ≤ fieldEnd l := Nat.le_add_right _ _
  exact Nat.lt_of_le_of_lt hle h

theorem withName_eq_iff : withName valName (scannedRecords hdr) = namedFields hdr valName ↔
    (∀ f ∈ fieldsAt hdr, named valName f.2 = true → f ∈ scannedRecords hdr) ∧
      ∀ r ∈ scannedRecords hdr, named valName r.2 = true → r ∈ fieldsAt hdr := by
  refine ⟨fun h => ⟨fun f hf hn => ?_, fun r hr hn => ?_⟩, fun h => ?_⟩
  · have hmem : f ∈ namedFields hdr valName := mem_withName.mpr ⟨hf, hn⟩
    rw [← h] at hmem
    exact (mem_withName.mp hmem).1
  · have hmem := mem_withName.mpr ⟨hr, hn⟩
    rw [h] at hmem
    exact (mem_withName.mp hmem).1
  · apply List.Pairwise.eq_of_mem_iff ((scannedRecords_before hdr).filter _)
      ((fieldsAt_before hdr).filter _)
    intro l
    rw [List.mem_filter, List.mem_filter]
    exact ⟨fun hl => ⟨h.2 l hl.1 hl.2, hl.2⟩, fun hl => ⟨h.1 l hl.1 hl.2, hl.2⟩⟩

/-- The lookup goes by the fields with the name exactly where the scanner takes them, and nothing
else, for fields, and where it reads nothing behind the block. -/
theorem httpHdrValGet_right_iff (hdr valName : List Byte) :
    LookupRight hdr valName ↔ Seen hdr valName := by
  have hstart := fromStart hdr valName
  refine ⟨fun h => ?_, fun h => ?_⟩
  · have hvisit := hstart.visit
    rw [h.visit] at hvisit
    split_ifs at hvisit with hend
    have hmap := Except.ok.inj (Option.some.inj hvisit)
    have hsame : withName valName (scannedRecords hdr) = namedFields hdr valName :=
      map_eq_map_inj (fun r hr f hf h => record_eq_field hr hf h) hmap.symm
    obtain ⟨hfield, hrecord⟩ := withName_eq_iff.mp hsame
    refine ⟨hfield, hrecord, fun f hf hn hblank => hend ⟨f, ?_, hblank⟩⟩
    rw [hsame]
    exact mem_withName.mpr ⟨hf, hn⟩
  · have hsame := withName_eq_iff.mpr ⟨h.field, h.record⟩
    rw [hsame] at hstart
    have hend : ¬ ∃ r ∈ namedFields hdr valName, EndBlank hdr r := by
      rintro ⟨r, hr, hblank⟩
      obtain ⟨hmem, hn⟩ := mem_withName.mp hr
      exact h.inside r hmem hn hblank
    refine ⟨?_, ?_, hstart.count⟩
    · rw [hstart.get]
      cases hhead : (namedFields hdr valName).head? with
      | none => rfl
      | some f =>
        rw [Option.elim_some, Option.elim_some, if_neg]
        exact fun hblank => hend ⟨f, List.mem_of_head? hhead, hblank⟩
    · rw [hstart.visit, if_neg hend]

/-- `x` without `:` hides the field behind it. -/
theorem httpHdrValGet_not_right :
    ¬ LookupRight ("s\r\nx\r\nhost:a\r\n".toList.map chr) host := by
  intro h
  have hget : httpHdrValGet ("s\r\nx\r\nhost:a\r\n".toList.map chr) host =
      some (.error .espipe) := by decide +kernel
  have hright := h.get
  rw [hget] at hright
  revert hright
  decide +kernel

end Http
