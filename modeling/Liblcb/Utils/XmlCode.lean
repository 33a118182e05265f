import Liblcb.Utils.MemReplace

/-!
# Escaping for XML

`xml_encode` and `xml_decode` of `utils/xml.c`.  Both are `mem_replace_arr`, with the two tables
exchanged.  No pattern of either table begins with another one, so what is replaced at a place does
not depend on what was replaced before.
-/

namespace Xml

open Mem MemReplace Replace

def xmlTags : List (List Byte) :=
  ["&apos;".toList.map chr, "&quot;".toList.map chr, "&amp;".toList.map chr, "&lt;".toList.map chr,
    "&gt;".toList.map chr]

def xmlSymbols : List Byte := [0x27#8, 0x22#8, chr '&', chr '<', chr '>']

/-- The tables as `xml_encode` hands them over. -/
def encodeTable : List Repl := List.zipWith (fun c tag => ⟨[c], tag⟩) xmlSymbols xmlTags

/-- The tables as `xml_decode` hands them over. -/
def decodeTable : List Repl := List.zipWith (fun c tag => ⟨tag, [c]⟩) xmlSymbols xmlTags

def xmlDecode (encoded xml : List Byte) : Option (Except Errno Done) :=
  memReplaceArr encoded decodeTable false xml

def xmlEncode (xml encoded : List Byte) : Option (Except Errno Done) :=
  memReplaceArr xml encodeTable false encoded

/-- What a byte is encoded as. -/
def escape (b : Byte) : List Byte :=
  match encodeTable.find? (·.pat = [b]) with
  | none => [b]
  | some r => r.new

/-! ## The tables -/

theorem encode_free : PrefixFree encodeTable := prefixFree_of_pairwise (by decide)

theorem decode_free : PrefixFree decodeTable := prefixFree_of_pairwise (by decide)

theorem encode_rule : ∀ r ∈ encodeTable, ∃ c ∈ xmlSymbols, r.pat = [c] ∧ r.new ∈ xmlTags ∧
    (⟨r.new, r.pat⟩ : Repl) ∈ decodeTable := by decide

theorem decode_rule : ∀ r ∈ decodeTable, r.pat ∈ xmlTags := by decide

theorem encode_length : ∀ r ∈ encodeTable, r.new.length ≤ 6 * r.pat.length := by decide

theorem decode_length : ∀ r ∈ decodeTable, r.new.length ≤ 1 * r.pat.length := by decide

theorem symbol_mem : ∀ c ∈ xmlSymbols, ∃ r ∈ encodeTable, r.pat = [c] := by decide

theorem tag_cons : ∀ tag ∈ xmlTags, ∃ rest, tag = chr '&' :: rest ∧ tag.length ≤ 6 ∧
    (∀ c ∈ xmlSymbols, c ∉ rest) := by
  intro tag htag
  refine ⟨tag.tail, ?_⟩
  revert tag
  decide

theorem escape_cases (b : Byte) :
    (∃ r ∈ encodeTable, r.pat = [b] ∧ escape b = r.new ∧ r.new ∈ xmlTags ∧
      (⟨r.new, [b]⟩ : Repl) ∈ decodeTable) ∨
    (escape b = [b] ∧ b ∉ xmlSymbols) := by
  unfold escape
  cases hfind : encodeTable.find? (·.pat = [b]) with
  | some r =>
    have hr := List.mem_of_find?_eq_some hfind
    have hpat : r.pat = [b] := by
      have hfound := List.find?_some hfind
      exact of_decide_eq_true hfound
    obtain ⟨c, -, -, htag, hdec⟩ := encode_rule r hr
    rw [hpat] at hdec
    exact .inl ⟨r, hr, hpat, rfl, htag, hdec⟩
  | none =>
    refine .inr ⟨rfl, fun hb => ?_⟩
    obtain ⟨r, hr, hpat⟩ := symbol_mem b hb
    have hno := List.find?_eq_none.mp hfind r hr
    exact hno (decide_eq_true hpat)

/-! ## Encoding -/

theorem applies_singleton {r : Repl} {b c : Byte} (text : List Byte) (hpat : r.pat = [c]) :
    r.Applies (b :: text) ↔ c = b := by
  rw [Rule.Applies, hpat, List.cons_prefix_cons]
  constructor
  · exact fun h => h.2.1
  · exact fun h => ⟨List.cons_ne_nil _ _, h, List.nil_prefix⟩

theorem target_encode : ∀ (x : List Byte) (last : Nat),
    (split (lowest encodeTable) last [] 0 x).target = x.flatMap escape
  | [], last => rfl
  | b :: x, last => by
    rw [List.flatMap_cons]
    rcases escape_cases b with ⟨r, hr, hpat, hesc, -⟩ | ⟨hesc, hb⟩
    · obtain ⟨i, hi⟩ := encode_free.lowest_eq last hr
        ((applies_singleton x hpat).mpr rfl)
      rw [target_some sound_lowest hi, hesc, hpat, List.length_singleton, List.drop_one,
        List.tail_cons, target_encode x i]
    · have hnone : lowest encodeTable last (b :: x) = none := by
        rw [lowest_eq_none]
        intro r hr happ
        obtain ⟨c, hc, hpat, -⟩ := encode_rule r hr
        rw [applies_singleton x hpat] at happ
        exact hb (happ ▸ hc)
      rw [target_none hnone, hesc, target_encode x last]
      rfl

theorem length_escape (b : Byte) : (escape b).length ≤ 6 := by
  rcases escape_cases b with ⟨r, -, -, hesc, htag, -⟩ | ⟨hesc, -⟩
  · obtain ⟨rest, -, hlen, -⟩ := tag_cons _ htag
    rw [hesc]
    exact hlen
  · rw [hesc, List.length_singleton]
    decide

theorem length_flatMap_escape (x : List Byte) : (x.flatMap escape).length ≤ 6 * x.length := by
  induction x with
  | nil => exact Nat.le_refl _
  | cons b x ih =>
    have hb := length_escape b
    rw [List.flatMap_cons, List.length_append, List.length_cons]
    omega

/-- No byte of the table but the ampersand, and that one only in front of an entity. -/
structure Escaped (text : List Byte) : Prop where
  symbols : ∀ c ∈ text, c ∈ xmlSymbols → c = chr '&'
  ampersand : ∀ i, text[i]? = some (chr '&') → ∃ tag ∈ xmlTags, tag <+: text.drop i

theorem escaped_flatMap (x : List Byte) : Escaped (x.flatMap escape) := by
  induction x with
  | nil =>
    refine ⟨fun c hc => absurd hc List.not_mem_nil, fun i hi => ?_⟩
    cases hi
  | cons b x ih =>
    rw [List.flatMap_cons]
    rcases escape_cases b with ⟨r, -, -, hesc, htag, -⟩ | ⟨hesc, hb⟩
    · obtain ⟨rest, hrest, -, hno⟩ := tag_cons _ htag
      rw [hesc]
      constructor
      · intro c hc hsym
        rcases List.mem_append.mp hc with hc | hc
        · rw [hrest] at hc
          rcases List.mem_cons.mp hc with hc | hc
          · exact hc
          · exact absurd hc (hno c hsym)
        · exact ih.symbols c hc hsym
      · intro i hi
        by_cases hin : i < r.new.length
        · -- inside an entity only its first byte is an ampersand
          cases i with
          | zero => exact ⟨r.new, htag, List.prefix_append _ _⟩
          | succ i =>
            rw [List.getElem?_append_left hin, hrest, List.getElem?_cons_succ] at hi
            exact absurd (List.mem_of_getElem? hi) (hno _ (by decide))
        · rw [List.getElem?_append_right (by omega)] at hi
          obtain ⟨tag, htag, hpre⟩ := ih.ampersand _ hi
          refine ⟨tag, htag, ?_⟩
          rw [List.drop_append, List.drop_eq_nil_of_le (by omega), List.nil_append]
          exact hpre
    · rw [hesc]
      constructor
      · intro c hc hsym
        rcases List.mem_cons.mp hc with rfl | hc
        · exact absurd hsym hb
        · exact ih.symbols c hc hsym
      · intro i hi
        cases i with
        | zero =>
          cases hi
          exact absurd (by decide) hb
        | succ i => exact ih.ampersand i hi

/-! ## Decoding -/

theorem target_decode : ∀ (x : List Byte) (last : Nat),
    (split (lowest decodeTable) last [] 0 (x.flatMap escape)).target = x
  | [], last => rfl
  | b :: x, last => by
    rw [List.flatMap_cons]
    rcases escape_cases b with ⟨r, -, -, hesc, htag, hdec⟩ | ⟨hesc, hb⟩
    · have hne : r.new ≠ [] := by
        obtain ⟨rest, hrest, -⟩ := tag_cons _ htag
        rw [hrest]
        exact List.cons_ne_nil _ _
      obtain ⟨i, hi⟩ := decode_free.lowest_eq last hdec
        ⟨hne, List.prefix_append r.new (x.flatMap escape)⟩
      rw [hesc, target_some sound_lowest hi, List.drop_left, target_decode x i]
      rfl
    · have hnone : lowest decodeTable last (b :: x.flatMap escape) = none := by
        rw [lowest_eq_none]
        intro r hr happ
        obtain ⟨rest, hrest, -⟩ := tag_cons _ (decode_rule r hr)
        have hpre := happ.2
        rw [hrest, List.cons_prefix_cons] at hpre
        apply hb
        rw [← hpre.1]
        decide
      rw [hesc, List.singleton_append, target_none hnone, target_decode x last]

/-! ## Both calls -/

/-- A text goes through both calls unchanged. -/
theorem xml_roundTrip (x encoded xml : List Byte) (hencoded : 6 * x.length < encoded.length)
    (hxml : 6 * x.length < xml.length) :
    ∃ e, xmlEncode x encoded = some (.ok e) ∧ Escaped e.text ∧
      ∃ d, xmlDecode e.text xml = some (.ok d) ∧ d.text = x := by
  obtain ⟨e, he, htext⟩ := memReplaceArr_free encode_free (by decide) (by decide)
    encode_length hencoded
  have hleft : e.text = x.flatMap escape := htext.trans (target_encode x 0)
  have hlen := length_flatMap_escape x
  have hsize : 1 * (x.flatMap escape).length < xml.length := by omega
  obtain ⟨d, hd, hres⟩ := memReplaceArr_free decode_free (by decide) Nat.zero_lt_one
    decode_length hsize
  refine ⟨e, he, ?_, d, ?_, hres.trans (target_decode x 0)⟩
  · rw [hleft]
    exact escaped_flatMap x
  · rw [hleft]
    exact hd

/-- A text that already looks like an entity. -/
theorem xml_roundTrip_entity : ∃ e, xmlEncode ("&lt;".toList.map chr) (List.replicate 25 0) =
      some (.ok e) ∧ Escaped e.text ∧
      ∃ d, xmlDecode e.text (List.replicate 25 0) = some (.ok d) ∧
        d.text = "&lt;".toList.map chr :=
  xml_roundTrip ("&lt;".toList.map chr) (List.replicate 25 0) (List.replicate 25 0) (by decide)
    (by decide)

end Xml
