import Liblcb.Proto.HttpQuery

/-!
# When the query lookup finds what it should

The first part with the name is found unless a part without `=` hides it, and a name that holds `&`
or `=` itself can be found where no part has it.
-/

namespace Http

open Mem

variable {query valName seg s t : List Byte} {pos k : Nat} {p q : Nat × List Byte}

/-! ## Lists -/

theorem findSome?_ite {α β : Type} {c : α → Bool} {f : α → β} {g : α → Option β} :
    ∀ {l : List α}, (∀ a ∈ l, g a = if c a then some (f a) else none) →
      l.findSome? g = (l.find? c).map f
  | [], _ => rfl
  | a :: l, h => by
    have ih := findSome?_ite (l := l) fun b hb => h b (List.mem_cons_of_mem a hb)
    have ha := h a List.mem_cons_self
    by_cases hc : c a
    · rw [if_pos hc] at ha
      rw [List.findSome?_cons, ha, List.find?_cons_of_pos hc]
      rfl
    · rw [if_neg hc] at ha
      rw [List.findSome?_cons, ha, List.find?_cons_of_neg hc, ih]

theorem find?_sublist {α : Type} {c : α → Bool} {l l' : List α} {a : α} (h : List.Sublist l l')
    (hnodup : l'.Nodup) (ha : a ∈ l) (hfind : l'.find? c = some a) : l.find? c = some a := by
  induction h with
  | slnil => exact absurd ha List.not_mem_nil
  | cons b hsub ih =>
    rw [List.nodup_cons] at hnodup
    by_cases hb : c b
    · rw [List.find?_cons_of_pos hb, Option.some.injEq] at hfind
      exact absurd (hfind ▸ hsub.subset ha) hnodup.1
    · rw [List.find?_cons_of_neg hb] at hfind
      exact ih hnodup.2 ha hfind
  | cons_cons b hsub ih =>
    rw [List.nodup_cons] at hnodup
    by_cases hb : c b
    · rwa [List.find?_cons_of_pos hb] at hfind ⊢
    · rw [List.find?_cons_of_neg hb] at hfind ⊢
      rcases List.mem_cons.mp ha with rfl | ha
      · exact absurd (List.find?_some hfind) hb
      · exact ih hnodup.2 ha hfind

/-! ## Parts of a query -/

theorem parts_induction {P : Nat → List Byte → Prop} (nil : ∀ pos, P pos [])
    (part : ∀ pos s seg k t, Begins s seg k t → P (pos + seg.length + k) t → P pos s) :
    ∀ {s : List Byte} {pos : Nat}, Clean s → P pos s := by
  intro s
  induction hn : s.length using Nat.strong_induction_on generalizing s with
  | _ n ih =>
    subst hn
    intro pos hclean
    by_cases hne : s = []
    · rw [hne]
      exact nil pos
    · obtain ⟨seg, k, t, hb⟩ := exists_begins hne hclean
      have hlen := congrArg List.length hb.eq
      have hseg := List.length_pos_iff.mpr hb.ne_nil
      rw [List.length_append, List.length_append] at hlen
      exact part pos s seg k t hb (ih t.length (by omega) rfl hb.clean)

theorem Begins.lt_of_mem (hb : Begins s seg k t)
    (h : p ∈ parts (pos + seg.length + k) t) : pos + seg.length < p.1 := by
  have hle := parts_le h
  have hk : k ≠ 0 := by
    rintro rfl
    rw [hb.last rfl] at h
    exact List.not_mem_nil h
  omega

theorem parts_pairwise (hclean : Clean s) :
    (parts pos s).Pairwise fun p q => p.1 + p.2.length < q.1 := by
  apply parts_induction (P := fun pos s => (parts pos s).Pairwise fun p q => p.1 + p.2.length < q.1)
    (fun _ => List.Pairwise.nil) _ hclean
  intro pos s seg k t hb ih
  rw [hb.parts_eq, List.pairwise_cons]
  exact ⟨fun q hq => hb.lt_of_mem hq, ih⟩

def Opens (pre : List Byte) : Prop := pre = [] ∨ ∃ x, pre = x ++ [amp]

theorem opens_amps (pre : List Byte) (hk : k ≠ 0) : Opens (pre ++ List.replicate k amp) := by
  obtain ⟨j, rfl⟩ := Nat.exists_eq_succ_of_ne_zero hk
  exact .inr ⟨pre ++ List.replicate j amp, by rw [List.replicate_succ', List.append_assoc]⟩

theorem parts_mem (hclean : Clean s) : p ∈ parts pos s →
    ∃ mid r k t, s = mid ++ r ∧ p.1 = pos + mid.length ∧ Begins r p.2 k t ∧ Opens mid := by
  apply parts_induction (P := fun pos s => p ∈ parts pos s →
    ∃ mid r k t, s = mid ++ r ∧ p.1 = pos + mid.length ∧ Begins r p.2 k t ∧ Opens mid) _ _ hclean
  · exact fun pos h => absurd h List.not_mem_nil
  · intro pos s seg k t hb ih hp
    rw [hb.parts_eq] at hp
    rcases List.mem_cons.mp hp with rfl | hp
    · exact ⟨[], s, k, t, rfl, rfl, hb, .inl rfl⟩
    · have hk : k ≠ 0 := by
        rintro rfl
        rw [hb.last rfl] at hp
        exact List.not_mem_nil hp
      obtain ⟨mid, r, k', t', rfl, hpos, hb', hopens⟩ := ih hp
      refine ⟨seg ++ List.replicate k amp ++ mid, r, k', t', ?_, ?_, hb', ?_⟩
      · rw [hb.eq, List.append_assoc, List.append_assoc]
      · rw [hpos, List.length_append, List.length_append, List.length_replicate]
        omega
      · rcases hopens with rfl | ⟨x, rfl⟩
        · rw [List.append_nil]
          exact opens_amps seg hk
        · exact .inr ⟨_, (List.append_assoc _ x [amp]).symm⟩

theorem parts_zero (query : List Byte) :
    ∃ k t, query = List.replicate k amp ++ t ∧ Clean t ∧ parts 0 query = parts k t := by
  obtain ⟨k, t, hquery, hclean, -⟩ := split_amps query
  refine ⟨k, t, hquery, hclean, ?_⟩
  rw [hquery, parts_amps, Nat.zero_add]

theorem parts_zero_mem (h : p ∈ parts 0 query) :
    ∃ pre r k t, query = pre ++ r ∧ p.1 = pre.length ∧ Begins r p.2 k t ∧ Opens pre := by
  obtain ⟨k, s, hquery, hclean, hparts⟩ := parts_zero query
  rw [hparts] at h
  obtain ⟨mid, r, k', t, rfl, hpos, hb, hopens⟩ := parts_mem hclean h
  refine ⟨List.replicate k amp ++ mid, r, k', t, ?_, ?_, hb, ?_⟩
  · rw [hquery, List.append_assoc]
  · rw [hpos, List.length_append, List.length_replicate]
  · rcases hopens with rfl | ⟨x, rfl⟩
    · by_cases hk : k = 0
      · rw [hk]
        exact .inl rfl
      · have h := opens_amps [] hk
        rwa [List.nil_append, ← List.append_nil (List.replicate k amp)] at h
    · exact .inr ⟨_, (List.append_assoc _ x [amp]).symm⟩

theorem parts_zero_pairwise : (parts 0 query).Pairwise fun p q => p.1 + p.2.length < q.1 := by
  obtain ⟨k, s, -, hclean, hparts⟩ := parts_zero query
  rw [hparts]
  exact parts_pairwise hclean

theorem parts_zero_nodup : (parts 0 query).Nodup := by
  apply List.Pairwise.imp _ parts_zero_pairwise
  rintro p q h rfl
  omega

theorem reached_sublist : ∀ {hides : Bool} {ps : List (Nat × List Byte)},
    List.Sublist (reached hides ps) ps
  | _, [] => List.Sublist.refl []
  | true, p :: ps => List.Sublist.cons p (@reached_sublist _ ps)
  | false, p :: ps => List.Sublist.cons_cons p (@reached_sublist _ ps)

/-! ## A name in a part -/

theorem lower_amp : ∀ b : Byte, lower b = amp → b = amp := by decide +kernel

theorem lower_eqs : ∀ b : Byte, lower b = eqs → b = eqs := by decide +kernel

theorem mem_iff_of_memCmpin {a b : List Byte} {c : Byte} (hc : ∀ d, lower d = c → d = c)
    (hself : lower c = c) (h : memCmpin a b = true) : c ∈ a ↔ c ∈ b := by
  have hmem : ∀ l : List Byte, c ∈ l ↔ c ∈ l.map lower := by
    intro l
    rw [List.mem_map]
    refine ⟨fun hl => ⟨c, hl, hself⟩, ?_⟩
    rintro ⟨d, hd, hlow⟩
    rwa [hc d hlow] at hd
  rw [hmem a, hmem b, memCmpin_iff.mp h]

theorem amp_iff_of_memCmpin {a b : List Byte} (h : memCmpin a b = true) : amp ∈ a ↔ amp ∈ b :=
  mem_iff_of_memCmpin lower_amp (by decide) h

theorem eqs_iff_of_memCmpin {a b : List Byte} (h : memCmpin a b = true) : eqs ∈ a ↔ eqs ∈ b :=
  mem_iff_of_memCmpin lower_eqs (by decide) h

theorem hasName_iff : hasName valName seg = true ↔
    ∃ n v, seg = n ++ eqs :: v ∧ eqs ∉ n ∧ memCmpin n valName = true := by
  constructor
  · intro h
    by_cases heqs : eqs ∈ seg
    · obtain ⟨n, v, rfl, hn⟩ := List.eq_append_cons_of_mem heqs
      rw [hasName, memChr_append v hn, Option.any_some, List.take_left] at h
      exact ⟨n, v, rfl, hn, h⟩
    · rw [hasName, memChr_none.mpr heqs] at h
      exact absurd h Bool.false_ne_true
  · rintro ⟨n, v, rfl, hn, hcmp⟩
    rw [hasName, memChr_append v hn, Option.any_some, List.take_left]
    exact hcmp

/-- Where the value of a part with a name is. -/
def queryVal (p : Nat × List Byte) : QueryVal :=
  let i := (memChr p.2 eqs).getD 0
  ⟨p.1, p.1 + i + 1, p.2.length - (i + 1)⟩

theorem queryVal_eq {n v : List Byte} (hn : eqs ∉ n) (pos : Nat) :
    queryVal (pos, n ++ eqs :: v) = ⟨pos, pos + n.length + 1, v.length⟩ := by
  have hsize : n.length + (v.length + 1) - (n.length + 1) = v.length := by omega
  rw [queryVal, memChr_append v hn, Option.getD_some, List.length_append, List.length_cons, hsize]

/-- The text begins with the name and a `=` that the scanner takes for its end. -/
def StandsAt (text valName : List Byte) : Prop :=
  ∃ n rest, text = n ++ eqs :: rest ∧ eqs ∉ n.tail ∧ memCmpin n valName = true

theorem lookupAt_of_stands {pre n rest : List Byte} (hquery : query = pre ++ (n ++ eqs :: rest))
    (hne : n ≠ []) (hn : eqs ∉ n.tail) :
    lookupAt query valName pre.length = if memCmpin n valName then
      some ⟨pre.length, pre.length + n.length + 1,
        (memChrOff (pre.length + n.length + 1) query amp).getD query.length -
          (pre.length + n.length + 1)⟩
    else none := by
  obtain ⟨c, m, rfl⟩ := List.exists_cons_of_ne_nil hne
  have hend : memChrOff (pre.length + 1) query eqs = some (pre.length + (c :: m).length) := by
    have hsplit : query = (pre ++ [c]) ++ (m ++ eqs :: rest) := by
      rw [hquery, List.append_assoc, List.singleton_append, List.cons_append]
    have hstart : pre.length + 1 = (pre ++ [c]).length := by
      rw [List.length_append, List.length_singleton]
    have hm : eqs ∉ m := hn
    rw [hsplit, memChrOff_append hstart hm, List.length_cons, Nat.add_assoc, Nat.add_comm 1]
  have htake : (query.drop pre.length).take (c :: m).length = c :: m := by
    rw [hquery, List.drop_left, List.take_left]
  rw [lookupAt, hend, Option.bind_some, Nat.add_sub_cancel_left, htake]

theorem ne_nil_of_memCmpin {a b : List Byte} (h : memCmpin a b = true) (hb : b ≠ []) : a ≠ [] := by
  intro ha
  have hlen := length_of_memCmpin h
  rw [ha, List.length_nil] at hlen
  exact hb (List.eq_nil_of_length_eq_zero hlen.symm)

theorem lookupAt_none (hne : valName ≠ []) :
    lookupAt query valName pos = none ↔ ¬ StandsAt (query.drop pos) valName := by
  by_cases heqs : ∃ c m rest, query.drop pos = c :: m ++ eqs :: rest ∧ eqs ∉ m
  · obtain ⟨c, m, rest, htext, hm⟩ := heqs
    have hle : pos ≤ query.length := by
      by_contra hlt
      rw [List.drop_of_length_le (by omega)] at htext
      cases htext
    have hpre : (query.take pos).length = pos := List.length_take_of_le hle
    have hquery : query = query.take pos ++ (c :: m ++ eqs :: rest) := by
      rw [← htext, List.take_append_drop]
    -- the name that is compared goes up to the next `=`, even behind a `&`
    have hlook := @lookupAt_of_stands _ valName _ _ _ hquery (List.cons_ne_nil c m) hm
    rw [hpre] at hlook
    rw [hlook]
    by_cases hcmp : memCmpin (c :: m) valName
    · rw [if_pos hcmp]
      refine ⟨fun h => (by cases h), fun h => absurd ⟨c :: m, rest, htext, hm, hcmp⟩ h⟩
    · rw [if_neg hcmp]
      refine ⟨fun _ hstands => ?_, fun _ => rfl⟩
      obtain ⟨n, rest', htext', hn, hcmp'⟩ := hstands
      obtain ⟨d, m', rfl⟩ := List.exists_cons_of_ne_nil (ne_nil_of_memCmpin hcmp' hne)
      rw [htext, List.cons_append, List.cons_append] at htext'
      obtain ⟨hd, htail⟩ := List.cons.inj htext'
      have hm' : eqs ∉ m' := hn
      rw [hd, (append_chr_inj hm hm' htail).1] at hcmp
      exact hcmp hcmp'
  · -- no `=` behind the first byte
    have hnone : lookupAt query valName pos = none := by
      rw [lookupAt, memChrOff_of_absent, Option.bind_none]
      intro i hi hc
      rw [← Nat.add_sub_cancel' (Nat.le_of_succ_le hi), ← List.getElem?_drop] at hc
      cases htext : query.drop pos with
      | nil =>
        rw [htext] at hc
        cases hc
      | cons c r =>
        have hidx : i - pos = (i - pos - 1) + 1 := by omega
        rw [htext, hidx, List.getElem?_cons_succ] at hc
        obtain ⟨m, rest, rfl, hm⟩ := List.eq_append_cons_of_mem (List.mem_of_getElem? hc)
        exact heqs ⟨c, m, rest, htext, hm⟩
    refine ⟨fun _ hstands => ?_, fun _ => hnone⟩
    obtain ⟨n, rest, htext, hn, hcmp⟩ := hstands
    obtain ⟨d, m, rfl⟩ := List.exists_cons_of_ne_nil (ne_nil_of_memCmpin hcmp hne)
    exact heqs ⟨d, m, rest, htext, hn⟩

theorem Ends.ne_append {x y : List Byte} (h : Ends s) (hx : amp ∉ x) : s ≠ x ++ eqs :: y := by
  rintro rfl
  rcases h with h | h
  · exact absurd h (by simp)
  · cases x with
    | nil => exact absurd (Option.some.inj h) (by decide)
    | cons b x => exact hx (Option.some.inj h ▸ List.mem_cons_self)

theorem memChrOff_value {pre v : List Byte} {off : Nat} (hoff : off = pre.length) (hv : amp ∉ v)
    (hquery : query = pre ++ (v ++ (List.replicate k amp ++ t))) (hlast : k = 0 → t = []) :
    (memChrOff off query amp).getD query.length = off + v.length := by
  cases k with
  | zero =>
    have hnil : query = pre ++ v := by
      rw [hquery, hlast rfl, List.replicate_zero, List.append_nil, List.append_nil]
    rw [memChrOff_of_absent, Option.getD_none, hnil, List.length_append, hoff]
    intro i hi hc
    rw [hnil, List.getElem?_append_right (by omega)] at hc
    exact hv (List.mem_of_getElem? hc)
  | succ k =>
    rw [hquery, List.replicate_succ, List.cons_append, memChrOff_append hoff hv,
      Option.getD_some]

theorem lookupAt_pair {pre r n v : List Byte} (hb : Begins r (n ++ eqs :: v) k t)
    (hquery : query = pre ++ r) (hne : n ≠ []) (hn : eqs ∉ n) :
    lookupAt query valName pre.length =
      if memCmpin n valName then some (queryVal (pre.length, n ++ eqs :: v)) else none := by
  have hv : amp ∉ v := fun h => hb.amp_notMem (List.mem_append_right n (List.mem_cons_of_mem _ h))
  have hsplit : query = pre ++ (n ++ eqs :: (v ++ (List.replicate k amp ++ t))) := by
    rw [hquery, hb.eq, List.append_assoc, List.cons_append]
  have hsplit' : query = (pre ++ n ++ [eqs]) ++ (v ++ (List.replicate k amp ++ t)) := by
    rw [hsplit, List.append_assoc, List.append_assoc, List.singleton_append]
  have hstart : pre.length + n.length + 1 = (pre ++ n ++ [eqs]).length := by
    rw [List.length_append, List.length_append, List.length_singleton]
  rw [lookupAt_of_stands hsplit hne (fun h => hn (List.mem_of_mem_tail h)),
    memChrOff_value hstart hv hsplit' hb.last, Nat.add_sub_cancel_left, queryVal_eq hn]

theorem lookupAt_part {pre r : List Byte} (hb : Begins r seg k t) (hquery : query = pre ++ r)
    (hne : valName ≠ []) (hamp : amp ∉ valName) (heqs : eqs ∉ valName) :
    lookupAt query valName pre.length =
      if hasName valName seg then some (queryVal (pre.length, seg)) else none := by
  by_cases hname : hasName valName seg
  · obtain ⟨n, v, rfl, hn, hcmp⟩ := hasName_iff.mp hname
    rw [if_pos hname, lookupAt_pair hb hquery (ne_nil_of_memCmpin hcmp hne) hn, if_pos hcmp]
  · rw [if_neg hname, lookupAt_none hne, hquery, List.drop_left]
    rintro ⟨n, rest, htext, hn, hcmp⟩
    have hamp' : amp ∉ n := fun h => hamp ((amp_iff_of_memCmpin hcmp).mp h)
    have heqs' : eqs ∉ n := fun h => heqs ((eqs_iff_of_memCmpin hcmp).mp h)
    rw [hb.eq, List.append_eq_append_iff] at htext
    rcases htext with ⟨x, rfl, hx⟩ | ⟨x, rfl, hx⟩
    · exact hb.ends.ne_append (fun h => hamp' (List.mem_append_right seg h)) hx
    · cases x with
      | nil => exact hb.ends.ne_append List.not_mem_nil hx.symm
      | cons b x =>
        obtain ⟨rfl, -⟩ := List.cons.inj hx
        exact hname (hasName_iff.mpr ⟨n, x, rfl, heqs', hcmp⟩)

/-! ## The lookup -/

/-- The first part that has the name. -/
def firstNamed (query valName : List Byte) : Option (Nat × List Byte) :=
  (parts 0 query).find? fun p => hasName valName p.2

/-- The parts that the scanner comes to. -/
def scannedParts (query : List Byte) : List (Nat × List Byte) := reached false (parts 0 query)

/-- The lookup returns the value of the first part that has the name. -/
def ValGetRight (query valName : List Byte) : Prop :=
  httpQueryValGet query valName = some ((firstNamed query valName).elim (.error .espipe) fun p =>
    .ok ((queryVal p).val, (queryVal p).valSize))

/-- The first part with the name is not hidden, and a name with `&` or `=` in it stands nowhere that
the scanner comes to. -/
structure NotHidden (query valName : List Byte) : Prop where
  first : ∀ p, firstNamed query valName = some p → p ∈ scannedParts query
  apart : amp ∈ valName ∨ eqs ∈ valName →
    ∀ p ∈ scannedParts query, ¬ StandsAt (query.drop p.1) valName

theorem queryVal_bounds (h : hasName valName p.2 = true) :
    p.1 < (queryVal p).val ∧ (queryVal p).val ≤ p.1 + p.2.length := by
  obtain ⟨i, seg⟩ := p
  obtain ⟨n, v, rfl, hn, -⟩ := hasName_iff.mp h
  rw [queryVal_eq hn, List.length_append, List.length_cons]
  dsimp only
  omega

theorem queryVal_inj (hp : p ∈ parts 0 query) (hq : q ∈ parts 0 query)
    (hnp : hasName valName p.2 = true) (hnq : hasName valName q.2 = true)
    (h : (queryVal p).val = (queryVal q).val) : p = q := by
  by_contra hne
  have hbp := queryVal_bounds hnp
  have hbq := queryVal_bounds hnq
  have hpair := @parts_zero_pairwise query
  rcases List.pairwise_iff_getElem.mp hpair with hlt
  obtain ⟨i, hi, rfl⟩ := List.getElem_of_mem hp
  obtain ⟨j, hj, rfl⟩ := List.getElem_of_mem hq
  rcases Nat.lt_trichotomy i j with hij | rfl | hij
  · have h' := hlt i j hi hj hij
    omega
  · exact hne rfl
  · have h' := hlt j i hj hi hij
    omega

theorem hasName_of_find {ps : List (Nat × List Byte)}
    (h : ps.find? (fun p => hasName valName p.2) = some p) : hasName valName p.2 = true :=
  List.find?_some (p := fun q : Nat × List Byte => hasName valName q.2) h

theorem firstNamed_name (h : firstNamed query valName = some p) :
    amp ∉ valName ∧ eqs ∉ valName := by
  have hmem := List.mem_of_find?_eq_some h
  obtain ⟨pre, r, k, t, -, -, hb, -⟩ := parts_zero_mem hmem
  obtain ⟨n, v, hseg, hn, hcmp⟩ := hasName_iff.mp (hasName_of_find h)
  refine ⟨fun h => ?_, fun h => hn ((eqs_iff_of_memCmpin hcmp).mpr h)⟩
  apply hb.amp_notMem
  rw [hseg]
  exact List.mem_append_left _ ((amp_iff_of_memCmpin hcmp).mpr h)

theorem lookupAt_scanned (hp : p ∈ scannedParts query) (hne : valName ≠ []) (hamp : amp ∉ valName)
    (heqs : eqs ∉ valName) : lookupAt query valName p.1 =
      if hasName valName p.2 then some (queryVal p) else none := by
  obtain ⟨pre, r, k, t, hquery, hpos, hb, -⟩ :=
    parts_zero_mem (reached_sublist.subset hp)
  obtain ⟨i, seg⟩ := p
  dsimp only at hpos hb ⊢
  rw [hpos]
  exact lookupAt_part hb hquery hne hamp heqs

theorem elim_ok_inj {α : Type} {a b : Option α}
    (h : a.elim (.error Err.espipe) Except.ok = b.elim (.error .espipe) Except.ok) : a = b := by
  cases a with
  | none =>
    cases b with
    | none => rfl
    | some y => cases h
  | some x =>
    cases b with
    | none => cases h
    | some y => exact congrArg some (Except.ok.inj h)

theorem httpQueryValGet_eq : httpQueryValGet query valName = some
    ((((scannedParts query).findSome? fun p => lookupAt query valName p.1).map fun v =>
      (v.val, v.valSize)).elim (.error .espipe) .ok) := by
  rw [httpQueryValGet, httpQueryValGetEx_eq, Option.map_some, ← scannedParts]
  cases (scannedParts query).findSome? fun p => lookupAt query valName p.1 with
  | none => rfl
  | some v => rfl

theorem valGetRight_iff : ValGetRight query valName ↔
    ((scannedParts query).findSome? fun p => lookupAt query valName p.1).map
      (fun v => (v.val, v.valSize)) =
    (firstNamed query valName).map fun p => ((queryVal p).val, (queryVal p).valSize) := by
  have helim : (firstNamed query valName).elim (.error Err.espipe)
      (fun p => Except.ok ((queryVal p).val, (queryVal p).valSize)) =
      ((firstNamed query valName).map fun p => ((queryVal p).val, (queryVal p).valSize)).elim
        (.error .espipe) .ok := by
    cases firstNamed query valName with
    | none => rfl
    | some p => rfl
  rw [ValGetRight, httpQueryValGet_eq, helim, Option.some.injEq]
  exact ⟨elim_ok_inj, fun h => by rw [h]⟩

theorem right_of_plain (hne : valName ≠ []) (hamp : amp ∉ valName) (heqs : eqs ∉ valName) :
    ValGetRight query valName ↔
      ∀ p, firstNamed query valName = some p → p ∈ scannedParts query := by
  have hsub : List.Sublist (scannedParts query) (parts 0 query) := reached_sublist
  have hfind : ((scannedParts query).findSome? fun p => lookupAt query valName p.1) =
      ((scannedParts query).find? fun p => hasName valName p.2).map queryVal :=
    findSome?_ite fun p hp => lookupAt_scanned hp hne hamp heqs
  rw [valGetRight_iff, hfind]
  refine ⟨fun h p hp => ?_, fun h => ?_⟩
  · rw [hp, Option.map_some, Option.map_eq_some_iff] at h
    obtain ⟨v, hv, hval⟩ := h
    obtain ⟨q, hq, rfl⟩ := Option.map_eq_some_iff.mp hv
    have hmem := List.mem_of_find?_eq_some hq
    have hpq : q = p := queryVal_inj (hsub.subset hmem) (List.mem_of_find?_eq_some hp)
      (hasName_of_find hq) (hasName_of_find hp) (congrArg Prod.fst hval)
    exact hpq ▸ hmem
  · cases hp : firstNamed query valName with
    | none => rw [hsub.find?_eq_none hp, Option.map_none, Option.map_none, Option.map_none]
    | some p =>
      rw [find?_sublist hsub parts_zero_nodup (h p hp) hp, Option.map_some, Option.map_some,
        Option.map_some]

theorem right_of_special (hne : valName ≠ []) (h : amp ∈ valName ∨ eqs ∈ valName) :
    ValGetRight query valName ↔
      ∀ p ∈ scannedParts query, ¬ StandsAt (query.drop p.1) valName := by
  have hnone : firstNamed query valName = none := by
    cases hp : firstNamed query valName with
    | none => rfl
    | some p =>
      have hname := firstNamed_name hp
      exact absurd h (not_or.mpr hname)
  rw [valGetRight_iff, hnone, Option.map_none, Option.map_eq_none_iff, List.findSome?_eq_none_iff]
  exact forall₂_congr fun p _ => lookupAt_none hne

/-- The lookup ends and reads only inside the query, and it is right exactly where nothing hides the
first part that has the name. -/
theorem httpQueryValGet_right_iff (query valName : List Byte) (hne : valName ≠ []) :
    (∃ r, httpQueryValGet query valName = some r ∧ r ≠ .error .noReturn) ∧
      (ValGetRight query valName ↔ NotHidden query valName) := by
  refine ⟨⟨_, httpQueryValGet_eq, ?_⟩, ?_⟩
  · cases ((scannedParts query).findSome? fun p => lookupAt query valName p.1).map fun v =>
      (v.val, v.valSize) with
    | none => exact fun h => (by cases h)
    | some v => exact fun h => (by cases h)
  · by_cases hspecial : amp ∈ valName ∨ eqs ∈ valName
    · rw [right_of_special hne hspecial]
      refine ⟨fun h => ⟨fun p hp => ?_, fun _ => h⟩, fun h => h.apart hspecial⟩
      exact absurd hspecial (not_or.mpr (firstNamed_name hp))
    · obtain ⟨hamp, heqs⟩ := not_or.mp hspecial
      rw [right_of_plain hne hamp heqs]
      exact ⟨fun h => ⟨h, fun hs => absurd hs hspecial⟩, fun h => h.first⟩

/-- `a&b=1`: the part `a` hides the one with the name `b`. -/
theorem httpQueryValGet_not_right :
    ¬ ValGetRight [chr 'a', amp, chr 'b', eqs, chr '1'] [chr 'b'] := by
  unfold ValGetRight
  decide

/-- In `a=1&b` the name `a` is found. -/
theorem httpQueryValGet_right_iff_first :
    [chr 'a'] ≠ [] ∧ ValGetRight [chr 'a', eqs, chr '1', amp, chr 'b'] [chr 'a'] :=
  ⟨List.cons_ne_nil _ _, (httpQueryValGet_right_iff _ _ (List.cons_ne_nil _ _)).2.mpr
    ⟨by decide, fun h => absurd h (by decide)⟩⟩

end Http
