import Liblcb.Proto.Http

/-!
# What the guard lets through

The fields of a header block, the fields the scanner sees of them, and what follows for a block that
`http_req_sec_chk` accepts.
-/

namespace Http

open Mem

/-! ## Fields -/

def Folded (s : List Byte) : Prop := s.head? = some ht ∨ s.head? = some sp

instance (s : List Byte) : Decidable (Folded s) := inferInstanceAs (Decidable (_ ∨ _))

/-- A text put before the first field. -/
def prepend (a : List Byte) : List (List Byte) → List (List Byte)
  | [] => [a]
  | f :: fs => (a ++ f) :: fs

/-- The text cut at every CRLF that SP or HT does not follow. -/
def fields : List Byte → List (List Byte)
  | [] => [[]]
  | [b] => [[b]]
  | b :: c :: s =>
    if b = cr ∧ c = lf ∧ ¬Folded s then [] :: fields s else prepend [b] (fields (c :: s))

theorem prepend_append (a b : List Byte) (fs : List (List Byte)) :
    prepend (a ++ b) fs = prepend a (prepend b fs) := by
  match fs with
  | [] => rfl
  | f :: fs => rw [prepend, prepend, prepend, List.append_assoc]

theorem prepend_ne_nil (a : List Byte) (fs : List (List Byte)) : prepend a fs ≠ [] := by
  match fs with
  | [] => nofun
  | f :: fs => nofun

theorem fields_ne_nil (s : List Byte) : fields s ≠ [] := by
  match s with
  | [] => nofun
  | [b] => nofun
  | b :: c :: s =>
    rw [fields]
    split
    · nofun
    · exact prepend_ne_nil _ _

theorem fields_cons {b : Byte} {s : List Byte}
    (h : ¬(b = cr ∧ s.head? = some lf ∧ ¬Folded s.tail)) :
    fields (b :: s) = prepend [b] (fields s) := by
  match s, h with
  | [], _ => rfl
  | c :: s, h =>
    rw [fields, if_neg]
    rintro ⟨hb, hc, hs⟩
    exact h ⟨hb, by rw [hc, List.head?_cons], hs⟩

theorem memmem_crlf (s : List Byte) :
    (memmem crlf s = none ∧ fields s = [s]) ∨
    ∃ a rest, s = a ++ cr :: lf :: rest ∧ memmem crlf s = some a.length ∧
      fields s = if Folded rest then prepend (a ++ crlf) (fields rest) else a :: fields rest := by
  induction s with
  | nil => exact .inl ⟨rfl, rfl⟩
  | cons b s ih =>
    by_cases hhere : ∃ rest, b = cr ∧ s = lf :: rest
    · rcases hhere with ⟨rest, rfl, rfl⟩
      refine .inr ⟨[], rest, rfl, rfl, ?_⟩
      by_cases hfold : Folded rest
      · have hlf : fields (lf :: rest) = prepend [lf] (fields rest) :=
          fields_cons (fun h => absurd h.1 (by decide))
        rw [if_pos hfold, fields, if_neg (fun h => h.2.2 hfold), hlf, ← prepend_append]
        rfl
      · rw [if_neg hfold, fields, if_pos ⟨rfl, rfl, hfold⟩]
    -- no CRLF starts here, so the first one is that of the rest
    · have hnot : crlf.isPrefixOf (b :: s) = false := by
        rw [Bool.eq_false_iff]
        intro h
        rw [List.isPrefixOf_iff_prefix] at h
        rcases h with ⟨t, ht⟩
        rw [crlf, List.cons_append, List.cons_append, List.nil_append] at ht
        injection ht with h1 h2
        exact hhere ⟨t, h1.symm, h2.symm⟩
      have hmem : memmem crlf (b :: s) = (memmem crlf s).map (· + 1) := by
        rw [memmem, hnot]
        rfl
      have hfields : fields (b :: s) = prepend [b] (fields s) := by
        apply fields_cons
        rintro ⟨hb, hs, -⟩
        cases s with
        | nil => cases hs
        | cons c s =>
          rw [List.head?_cons, Option.some.injEq] at hs
          exact hhere ⟨s, hb, by rw [hs]⟩
      rcases ih with ⟨hnone, hone⟩ | ⟨a, rest, rfl, hsome, hfs⟩
      · exact .inl ⟨by rw [hmem, hnone]; rfl, by rw [hfields, hone]; rfl⟩
      · refine .inr ⟨b :: a, rest, rfl, by rw [hmem, hsome]; rfl, ?_⟩
        rw [hfields, hfs]
        split
        · rw [← prepend_append]
          rfl
        · rfl

theorem fields_drop {s f : List Byte} {fs : List (List Byte)} (h : fields s = f :: fs) (k : Nat)
    (hk : k ≤ f.length) : fields (s.drop k) = f.drop k :: fs := by
  induction k generalizing s f with
  | zero => exact h
  | succ k ih =>
    match s with
    | [] =>
      rw [fields] at h
      injection h with hf
      rw [← hf, List.length_nil] at hk
      omega
    | b :: s =>
      by_cases hend : b = cr ∧ s.head? = some lf ∧ ¬Folded s.tail
      · -- the first field is empty
        match s, hend with
        | c :: s, ⟨hb, hc, hs⟩ =>
          rw [List.head?_cons, Option.some.injEq] at hc
          rw [fields, if_pos ⟨hb, hc, hs⟩] at h
          injection h with hf
          rw [← hf, List.length_nil] at hk
          omega
      · rw [fields_cons hend] at h
        match hs : fields s with
        | [] => exact absurd hs (fields_ne_nil s)
        | g :: gs =>
          rw [hs, prepend, List.singleton_append] at h
          injection h with hf hfs
          rw [← hf] at hk ⊢
          rw [List.length_cons] at hk
          have hk' : k ≤ g.length := by omega
          rw [hfs] at hs
          rw [List.drop_succ_cons, List.drop_succ_cons]
          exact ih hs hk'

theorem fields_split {s f : List Byte} {fs : List (List Byte)} (h : fields s = f :: fs) :
    (s = f ∧ fs = []) ∨ ∃ rest, s = f ++ cr :: lf :: rest ∧ fs = fields rest := by
  induction s generalizing f with
  | nil =>
    rw [fields] at h
    injection h with hf hfs
    exact .inl ⟨hf, hfs.symm⟩
  | cons b s ih =>
    by_cases hend : b = cr ∧ s.head? = some lf ∧ ¬Folded s.tail
    · match s, hend with
      | c :: s, ⟨hb, hc, hs⟩ =>
        rw [List.head?_cons, Option.some.injEq] at hc
        rw [fields, if_pos ⟨hb, hc, hs⟩] at h
        injection h with hf hfs
        exact .inr ⟨s, by rw [← hf, hb, hc]; rfl, hfs.symm⟩
    · rw [fields_cons hend] at h
      match hs : fields s with
      | [] => exact absurd hs (fields_ne_nil s)
      | g :: gs =>
        rw [hs, prepend, List.singleton_append] at h
        injection h with hf hfs
        rw [hfs] at hs
        rw [← hf]
        rcases ih hs with ⟨rfl, hgs⟩ | ⟨rest, rfl, hgs⟩
        · exact .inl ⟨rfl, hgs⟩
        · exact .inr ⟨rest, rfl, hgs⟩

/-! ## The loops of the scanner -/

variable {hdr valName : List Byte}

theorem separatorLoop_eq (fuel separator : Nat) {f : List Byte} {fs : List (List Byte)}
    (h : fields (hdr.drop separator) = f :: fs) (hle : separator ≤ hdr.length)
    (hfuel : hdr.length - separator < fuel) :
    separatorLoop hdr fuel separator = .ok (separator + f.length) := by
  induction fuel generalizing separator f with
  | zero => omega
  | succ fuel ih =>
    have hlen : (hdr.drop separator).length = hdr.length - separator := List.length_drop
    rw [separatorLoop, memFindOff]
    rcases memmem_crlf (hdr.drop separator) with ⟨hnone, hone⟩ | ⟨a, rest, hs, hsome, hfs⟩
    · rw [hone] at h
      injection h with hf
      rw [hnone, ← hf, hlen]
      show Except.ok hdr.length = _
      congr 1
      omega
    · rw [hs, List.length_append, List.length_cons, List.length_cons] at hlen
      have hrest : hdr.drop (separator + a.length + 2) = rest := by
        rw [Nat.add_assoc, ← List.drop_drop, hs, ← List.drop_drop, List.drop_left]
        rfl
      have hget : hdr[separator + a.length + 2]? = rest.head? := by
        rw [← hrest, List.head?_drop]
      rw [hfs] at h
      rw [hsome]
      simp only [Option.map_some]
      by_cases hend : hdr.length ≤ separator + a.length + 2
      · have hnil : rest = [] := List.length_eq_zero_iff.mp (by omega)
        rw [if_neg (by rw [hnil]; decide)] at h
        injection h with hf
        rw [if_pos hend, hf]
      · rw [if_neg hend, hget]
        -- a line that is folded goes on, and the loop with it
        by_cases hfold : Folded rest
        · cases hr : fields rest with
          | nil => exact absurd hr (fields_ne_nil rest)
          | cons g gs =>
            rw [if_pos hfold, hr, prepend] at h
            injection h with hf hgs
            rw [hgs, ← hrest] at hr
            have hrec := ih (separator + a.length + 2) hr (by omega) (by omega)
            have hcond : rest.head? = some ht ∨ rest.head? = some sp := hfold
            rw [if_pos hcond, hrec, ← hf, List.length_append, List.length_append]
            show Except.ok (separator + a.length + 2 + g.length) =
              Except.ok (separator + (a.length + 2 + g.length))
            congr 1
            omega
        · have hcond : ¬(rest.head? = some ht ∨ rest.head? = some sp) := hfold
          rw [if_neg hfold] at h
          injection h with hf
          rw [if_neg hcond, hf]

/-- The name of a field: what stands before its first `:`. -/
def fieldName (f : List Byte) : Option (List Byte) := (memChr f (chr ':')).map f.take

/-- The field has the name, in any case. -/
def named (valName f : List Byte) : Bool := (fieldName f).any fun name => memCmpin name valName

/-- The fields the scanner sees: a field without `:` takes the next one that has it along, under no
name of its own. -/
def visible : Bool → List (List Byte) → List (List Byte)
  | _, [] => []
  | false, f :: fs => if chr ':' ∈ f then f :: visible false fs else visible true fs
  | true, f :: fs => visible (chr ':' ∉ f) fs

theorem named_append {name val : List Byte} (h : chr ':' ∉ name) :
    named valName (name ++ chr ':' :: val) = memCmpin name valName := by
  rw [named, fieldName, memChr_append val h, Option.map_some, Option.any_some, List.take_left]

theorem memCmpin_cr {a name : List Byte} (ha : cr ∈ a) (hname : cr ∉ valName.map lower) :
    memCmpin (a ++ name) valName = false := by
  rw [Bool.eq_false_iff]
  intro h
  rw [memCmpin, beq_iff_eq] at h
  apply hname
  rw [← h]
  exact List.mem_map.mpr ⟨cr, List.mem_append_left _ ha, by decide⟩

theorem fields_colon {fs : List (List Byte)} {s : List Byte} (h : fields s = fs) :
    (chr ':' ∉ s ∧ visible false fs = [] ∧ visible true fs = []) ∨
    ∃ a t f post, s = a ++ t ∧ fields t = f :: post ∧ chr ':' ∈ f ∧ chr ':' ∉ a ∧
      post.length < fs.length ∧ visible true fs = visible false post ∧
      ((a = [] ∧ visible false fs = f :: visible false post) ∨
        (cr ∈ a ∧ visible false fs = visible false post)) := by
  induction fs generalizing s with
  | nil => exact absurd h (fields_ne_nil s)
  | cons f fs ih =>
    by_cases hf : chr ':' ∈ f
    · refine .inr ⟨[], s, f, fs, rfl, h, hf, nofun, Nat.lt_succ_self _, ?_, .inl ⟨rfl, ?_⟩⟩
      · simp [visible, hf]
      · simp [visible, hf]
    · have hvis : visible false (f :: fs) = visible true fs ∧
          visible true (f :: fs) = visible true fs := by simp [visible, hf]
      rw [hvis.1, hvis.2]
      rcases fields_split h with ⟨rfl, rfl⟩ | ⟨rest, rfl, hfs⟩
      · exact .inl ⟨hf, rfl, rfl⟩
      · have hmem : ∀ {a : List Byte}, chr ':' ∉ a → chr ':' ∉ f ++ cr :: lf :: a := by
          intro a ha
          rw [List.mem_append, List.mem_cons, List.mem_cons]
          rintro (h1 | h1 | h1 | h1)
          · exact hf h1
          · exact absurd h1 (by decide)
          · exact absurd h1 (by decide)
          · exact ha h1
        rcases ih hfs.symm with ⟨hrest, -, htrue⟩ | ⟨a, t, g, post, rfl, ht, hg, ha, hlt, htrue, -⟩
        · exact .inl ⟨hmem hrest, htrue, htrue⟩
        · refine .inr ⟨f ++ cr :: lf :: a, t, g, post, by simp, ht, hg, hmem ha, ?_, htrue,
            .inr ⟨by simp, htrue⟩⟩
          rw [List.length_cons]
          omega

/-- `separator` is in front of the fields `fs`, or at the end of the block. -/
def At (hdr : List Byte) (separator : Nat) (fs : List (List Byte)) : Prop :=
  (∃ pre s, hdr = pre ++ cr :: lf :: s ∧ separator = pre.length ∧ fs = fields s) ∨
  separator = hdr.length ∧ fs = []

theorem memChrOff_none {buf : List Byte} {c : Byte} {off : Nat} (h : c ∉ buf.drop off) :
    memChrOff off buf c = none := by
  rw [memChrOff, List.idxOf?_eq_none_iff.mpr h]
  rfl

/-- One step of the outer loop: no field with a `:` is left, or the scanner is behind the next one. -/
theorem fieldLoop_step (fuel separator : Nat) {fs : List (List Byte)} (hat : At hdr separator fs)
    (hname : cr ∉ valName.map lower) :
    (fieldLoop hdr valName (fuel + 1) separator = .error .espipe ∧ visible false fs = []) ∨
    ∃ separator' f post, At hdr separator' post ∧ post.length < fs.length ∧
      ((visible false fs = f :: visible false post ∧ fieldLoop hdr valName (fuel + 1) separator =
          if named valName f then .ok separator' else fieldLoop hdr valName fuel separator') ∨
        (visible false fs = visible false post ∧ fieldLoop hdr valName (fuel + 1) separator =
          fieldLoop hdr valName fuel separator')) := by
  rcases hat with ⟨pre, s, rfl, rfl, rfl⟩ | ⟨rfl, rfl⟩
  · have hdrop : (pre ++ cr :: lf :: s).drop (pre.length + 2) = s := by
      rw [← List.drop_drop, List.drop_left]
      rfl
    rcases fields_colon (s := s) rfl with ⟨hnone, hvis, -⟩ |
      ⟨a, t, f, post, rfl, ht, hf, ha, hlt, -, hvis⟩
    · refine .inl ⟨?_, hvis⟩
      rw [fieldLoop]
      simp only []
      rw [memChrOff_none (by rw [hdrop]; exact hnone)]
    · rcases List.eq_append_cons_of_mem hf with ⟨name, val, rfl, hcolon⟩
      -- where the scanner stops: behind the field
      have hstop : ∃ tail, t = name ++ chr ':' :: val ++ tail ∧
          At (pre ++ cr :: lf :: (a ++ t))
            (pre.length + 2 + (a ++ name).length + 1 + val.length) post := by
        rcases fields_split ht with ⟨htext, hpost⟩ | ⟨rest, htext, hpost⟩
        · refine ⟨[], by rw [htext, List.append_nil], .inr ⟨?_, hpost⟩⟩
          rw [htext]
          simp only [List.length_append, List.length_cons]
          omega
        · refine ⟨cr :: lf :: rest, htext, .inl ⟨pre ++ cr :: lf :: (a ++ (name ++ chr ':' :: val)),
            rest, by rw [htext]; simp, ?_, hpost⟩⟩
          simp only [List.length_append, List.length_cons]
          omega
      rcases hstop with ⟨tail, htext, hstop⟩
      have hcolonAt : memChrOff (pre.length + 2) (pre ++ cr :: lf :: (a ++ t)) (chr ':') =
          some (pre.length + 2 + (a ++ name).length) := by
        rw [htext, show pre ++ cr :: lf :: (a ++ (name ++ chr ':' :: val ++ tail)) =
          (pre ++ [cr, lf]) ++ ((a ++ name) ++ chr ':' :: (val ++ tail)) by simp]
        apply memChrOff_append (by simp)
        rw [List.mem_append]
        exact fun h => h.elim ha hcolon
      have hval : fields ((pre ++ cr :: lf :: (a ++ t)).drop
          (pre.length + 2 + (a ++ name).length + 1)) = val :: post := by
        have hrest : (name ++ chr ':' :: val).drop (name.length + 1) = val := by
          rw [← List.drop_drop, List.drop_left, List.drop_succ_cons, List.drop_zero]
        have hdropt := fields_drop ht (name.length + 1) (by simp)
        rw [hrest] at hdropt
        rw [List.length_append, show pre.length + 2 + (a.length + name.length) + 1 =
          pre.length + 2 + (a.length + (name.length + 1)) by omega, ← List.drop_drop, hdrop,
          ← List.drop_drop, List.drop_left]
        exact hdropt
      have hsep := separatorLoop_eq ((pre ++ cr :: lf :: (a ++ t)).length + 1) _ hval
        (by rw [htext]; simp only [List.length_append, List.length_cons]; omega) (by omega)
      have hbytes : ((pre ++ cr :: lf :: (a ++ t)).drop (pre.length + 2)).take
          (pre.length + 2 + (a ++ name).length + 1 - (pre.length + 2) - 1) = a ++ name := by
        rw [hdrop, htext, show pre.length + 2 + (a ++ name).length + 1 - (pre.length + 2) - 1 =
          (a ++ name).length by omega,
          show a ++ (name ++ chr ':' :: val ++ tail) = (a ++ name) ++ (chr ':' :: val ++ tail) by
            simp, List.take_left]
      have hrun : fieldLoop (pre ++ cr :: lf :: (a ++ t)) valName (fuel + 1) pre.length =
          if memCmpin (a ++ name) valName then
            .ok (pre.length + 2 + (a ++ name).length + 1 + val.length)
          else fieldLoop (pre ++ cr :: lf :: (a ++ t)) valName fuel
            (pre.length + 2 + (a ++ name).length + 1 + val.length) := by
        rw [fieldLoop]
        simp only [hcolonAt, hsep, hbytes]
        rfl
      refine .inr ⟨_, name ++ chr ':' :: val, post, hstop, hlt, ?_⟩
      rw [hrun]
      rcases hvis with ⟨rfl, hvis⟩ | ⟨hcr, hvis⟩
      · exact .inl ⟨hvis, by rw [named_append hcolon, List.nil_append]⟩
      · exact .inr ⟨hvis, by rw [memCmpin_cr hcr hname, if_neg nofun]⟩
  · refine .inl ⟨?_, rfl⟩
    rw [fieldLoop]
    simp only []
    rw [memChrOff_none]
    rw [List.drop_eq_nil_of_le (by omega)]
    nofun

theorem fieldLoop_spec (fuel separator : Nat) {fs : List (List Byte)} (hat : At hdr separator fs)
    (hname : cr ∉ valName.map lower) (hfuel : fs.length < fuel) :
    (fieldLoop hdr valName fuel separator = .error .espipe ∧
      (visible false fs).countP (named valName) = 0) ∨
    ∃ separator' post, fieldLoop hdr valName fuel separator = .ok separator' ∧
      At hdr separator' post ∧ post.length < fs.length ∧
      (visible false fs).countP (named valName) =
        (visible false post).countP (named valName) + 1 := by
  induction fuel generalizing separator fs with
  | zero => omega
  | succ fuel ih =>
    rcases fieldLoop_step fuel separator hat hname with ⟨hrun, hvis⟩ |
      ⟨separator', f, post, hat', hlt, ⟨hvis, hrun⟩ | ⟨hvis, hrun⟩⟩
    · exact .inl ⟨hrun, by rw [hvis]; rfl⟩
    · rw [hrun, hvis, List.countP_cons]
      cases hf : named valName f with
      | true => exact .inr ⟨separator', post, rfl, hat', hlt, rfl⟩
      | false =>
        rcases ih separator' hat' (by omega) with ⟨h1, h2⟩ | ⟨sep, post', h1, h2, h3, h4⟩
        · exact .inl ⟨h1, h2⟩
        · exact .inr ⟨sep, post', h1, h2, by omega, h4⟩
    · rw [hrun, hvis]
      rcases ih separator' hat' (by omega) with ⟨h1, h2⟩ | ⟨sep, post', h1, h2, h3, h4⟩
      · exact .inl ⟨h1, h2⟩
      · exact .inr ⟨sep, post', h1, h2, by omega, h4⟩

theorem length_fields (s : List Byte) : (fields s).length ≤ s.length + 1 := by
  match s with
  | [] => exact Nat.le_refl _
  | [b] => exact Nat.le_add_left _ _
  | b :: c :: s =>
    rw [fields]
    split
    · have h := length_fields s
      simp only [List.length_cons]
      omega
    · have h := length_fields (c :: s)
      match hs : fields (c :: s) with
      | [] => exact absurd hs (fields_ne_nil _)
      | f :: fs =>
        rw [hs] at h
        simp only [prepend, List.length_cons] at h ⊢
        omega

theorem memFindOff_at (pre s : List Byte) :
    memFindOff pre.length (pre ++ cr :: lf :: s) crlf = some pre.length := by
  rw [memFindOff, List.drop_left]
  rfl

theorem At.length_le {separator : Nat} {fs : List (List Byte)} (hat : At hdr separator fs) :
    fs.length < hdr.length + 1 := by
  rcases hat with ⟨pre, s, rfl, rfl, rfl⟩ | ⟨rfl, rfl⟩
  · have h := length_fields s
    rw [List.length_append, List.length_cons, List.length_cons]
    omega
  · exact Nat.succ_pos _

theorem httpHdrValGetEx_at {separator : Nat} {fs : List (List Byte)} (hat : At hdr separator fs)
    (hname : cr ∉ valName.map lower) :
    (httpHdrValGetEx hdr valName separator = .error .espipe ∧
      (visible false fs).countP (named valName) = 0) ∨
    ∃ separator' post, httpHdrValGetEx hdr valName separator = .ok separator' ∧
      At hdr separator' post ∧ post.length < fs.length ∧
      (visible false fs).countP (named valName) =
        (visible false post).countP (named valName) + 1 := by
  have hspec := fieldLoop_spec (hdr.length + 1) separator hat hname hat.length_le
  unfold httpHdrValGetEx
  rcases hat with ⟨pre, s, rfl, rfl, rfl⟩ | ⟨rfl, rfl⟩
  · rw [memFindOff_at]
    exact hspec
  · refine .inl ⟨?_, rfl⟩
    rw [memFindOff, List.drop_length]
    rfl

theorem countLoop_at (fuel separator ret : Nat) {fs : List (List Byte)}
    (hat : At hdr separator fs) (hname : cr ∉ valName.map lower) (hfuel : fs.length < fuel) :
    countLoop hdr valName fuel separator ret =
      .ok (ret + (visible false fs).countP (named valName)) := by
  induction fuel generalizing separator ret fs with
  | zero => omega
  | succ fuel ih =>
    rw [countLoop]
    rcases httpHdrValGetEx_at hat hname with ⟨hrun, hcount⟩ | ⟨sep, post, hrun, hat', hlt, hcount⟩
    · rw [hrun, hcount]
      rfl
    · rw [hrun]
      simp only []
      rw [ih sep (ret + 1) hat' (by omega), hcount]
      congr 1
      omega

/-- The text behind the first CRLF, where the scanner starts. -/
def scanned (hdr : List Byte) : List (List Byte) :=
  match memmem crlf hdr with
  | none => []
  | some i => fields (hdr.drop (i + 2))

theorem httpHdrValGetCount_eq (hname : cr ∉ valName.map lower) :
    httpHdrValGetCount hdr valName =
      .ok ((visible false (scanned hdr)).countP (named valName)) := by
  unfold httpHdrValGetCount scanned
  rcases memmem_crlf hdr with ⟨hnone, -⟩ | ⟨a, rest, rfl, hsome, -⟩
  · rw [hnone, countLoop, httpHdrValGetEx, memFindOff, List.drop_zero, hnone]
    rfl
  · have hat : At (a ++ cr :: lf :: rest) a.length (fields rest) := .inl ⟨a, rest, rfl, rfl, rfl⟩
    have hdrop : (a ++ cr :: lf :: rest).drop (a.length + 2) = rest := by
      rw [← List.drop_drop, List.drop_left]
      rfl
    -- the search from offset 0 and from the first CRLF find the same
    have hstart : countLoop (a ++ cr :: lf :: rest) valName
        ((a ++ cr :: lf :: rest).length + 1) 0 0 =
        countLoop (a ++ cr :: lf :: rest) valName ((a ++ cr :: lf :: rest).length + 1) a.length 0 := by
      have hget : httpHdrValGetEx (a ++ cr :: lf :: rest) valName 0 =
          httpHdrValGetEx (a ++ cr :: lf :: rest) valName a.length := by
        rw [httpHdrValGetEx, httpHdrValGetEx, memFindOff_at, memFindOff, List.drop_zero, hsome,
          Option.map_some, Nat.zero_add]
      rw [countLoop, countLoop, hget]
    rw [hsome, hstart]
    simp only []
    rw [hdrop, countLoop_at _ _ _ hat hname hat.length_le, Nat.zero_add]

/-! ## Fields the scanner misses -/

/-- The fields right behind one without `:`. -/
def hidden : Bool → List (List Byte) → List (List Byte)
  | _, [] => []
  | false, f :: fs => hidden (chr ':' ∉ f) fs
  | true, f :: fs => if chr ':' ∈ f then f :: hidden false fs else hidden true fs

theorem named_false {f : List Byte} (h : chr ':' ∉ f) : named valName f = false := by
  rw [named, fieldName, memChr, List.idxOf?_eq_none_iff.mpr h]
  rfl

theorem countP_visible (valName : List Byte) (b : Bool) (fs : List (List Byte)) :
    (visible b fs).countP (named valName) + (hidden b fs).countP (named valName) =
      fs.countP (named valName) := by
  induction fs generalizing b with
  | nil => cases b <;> rfl
  | cons f fs ih =>
    have hfalse := ih false
    have htrue := ih true
    by_cases hf : chr ':' ∈ f
    · cases b with
      | false =>
        simp only [visible, hidden, hf, if_true, not_true_eq_false, decide_false,
          List.countP_cons]
        omega
      | true =>
        simp only [visible, hidden, hf, if_true, not_true_eq_false, decide_false,
          List.countP_cons]
        omega
    · cases b with
      | false =>
        simp only [visible, hidden, hf, if_false, not_false_eq_true, decide_true,
          List.countP_cons, named_false hf]
        exact htrue
      | true =>
        simp only [visible, hidden, hf, if_false, not_false_eq_true, decide_true,
          List.countP_cons, named_false hf]
        exact htrue

/-- How many fields after the start line have the name. -/
def fieldCount (hdr valName : List Byte) : Nat := (fields hdr).tail.countP (named valName)

theorem countP_scanned (hname : ¬Folded (valName.map lower)) :
    (scanned hdr).countP (named valName) = fieldCount hdr valName := by
  unfold scanned fieldCount
  rcases memmem_crlf hdr with ⟨hnone, hone⟩ | ⟨a, rest, rfl, hsome, hfs⟩
  · rw [hnone, hone]
    rfl
  · have hdrop : (a ++ cr :: lf :: rest).drop (a.length + 2) = rest := by
      rw [← List.drop_drop, List.drop_left]
      rfl
    rw [hsome, hfs]
    simp only [hdrop]
    by_cases hfold : Folded rest
    · rw [if_pos hfold]
      match hr : fields rest with
      | [] => exact absurd hr (fields_ne_nil rest)
      | c :: fs =>
        have hc : named valName c = false := by
          by_cases hcolon : chr ':' ∈ c
          · rcases List.eq_append_cons_of_mem hcolon with ⟨name, val, rfl, hn⟩
            rw [named_append hn, Bool.eq_false_iff]
            intro hcmp
            rw [memCmpin, beq_iff_eq] at hcmp
            have hprefix : ∃ tail, rest = name ++ chr ':' :: val ++ tail := by
              rcases fields_split hr with ⟨h, -⟩ | ⟨tail, h, -⟩
              · exact ⟨[], by rw [h, List.append_nil]⟩
              · exact ⟨_, h⟩
            rcases hprefix with ⟨tail, rfl⟩
            match name with
            | [] =>
              have hb : chr ':' = ht ∨ chr ':' = sp := by simpa [Folded] using hfold
              exact absurd hb (by decide)
            | b :: name =>
              apply hname
              rw [← hcmp]
              have hb : b = ht ∨ b = sp := by simpa [Folded] using hfold
              rcases hb with rfl | rfl
              · exact .inl rfl
              · exact .inr rfl
          · exact named_false hcolon
        rw [prepend, List.tail_cons, List.countP_cons, hc]
        rfl
    · rw [if_neg hfold, List.tail_cons]

/-! ## The bytes -/

/-- No byte above 126, no SP before `:`, no control byte but HT and CR LF pairs. -/
structure BytesOk (hdr : List Byte) : Prop where
  high : ∀ b ∈ hdr, b ≤ 126#8
  colon : ∀ i, hdr[i]? = some sp → hdr[i + 1]? ≠ some (chr ':')
  control : ∀ i b, hdr[i]? = some b → b ≤ 31#8 → b = ht ∨ b = cr ∧ hdr[i + 1]? = some lf ∨
    b = lf ∧ 0 < i ∧ hdr[i - 1]? = some cr

theorem bytesOk_nil : BytesOk [] := ⟨nofun, nofun, nofun⟩

theorem bytesOk_cons {b : Byte} {rest : List Byte} (hhigh : ¬126#8 < b)
    (hcolon : ¬(b = sp ∧ rest.head? = some (chr ':'))) (hcontrol : 31#8 < b ∨ b = ht)
    (hrest : BytesOk rest) : BytesOk (b :: rest) := by
  refine ⟨?_, ?_, ?_⟩
  · intro c hc
    rcases List.mem_cons.mp hc with rfl | hc
    · exact BitVec.not_lt.mp hhigh
    · exact hrest.high c hc
  · intro i hi
    match i, hi with
    | 0, hi =>
      rw [List.getElem?_cons_zero, Option.some.injEq] at hi
      rw [List.getElem?_cons_succ, ← List.head?_eq_getElem?]
      exact fun h => hcolon ⟨hi, h⟩
    | i + 1, hi =>
      rw [List.getElem?_cons_succ] at hi ⊢
      exact hrest.colon i hi
  · intro i c hi hc
    match i, hi with
    | 0, hi =>
      rw [List.getElem?_cons_zero, Option.some.injEq] at hi
      rcases hcontrol with h | h
      · rw [hi] at h
        exact absurd h (BitVec.not_lt.mpr hc)
      · exact .inl (hi ▸ h)
    | i + 1, hi =>
      rw [List.getElem?_cons_succ] at hi ⊢
      rcases hrest.control i c hi hc with h | h | ⟨h1, h2, h3⟩
      · exact .inl h
      · exact .inr (.inl h)
      · match i, h2 with
        | i + 1, _ => exact .inr (.inr ⟨h1, Nat.succ_pos _, h3⟩)

theorem bytesOk_crlf {rest : List Byte} (hrest : BytesOk rest) : BytesOk (cr :: lf :: rest) := by
  refine ⟨?_, ?_, ?_⟩
  · intro c hc
    rcases List.mem_cons.mp hc with rfl | hc
    · decide
    · rcases List.mem_cons.mp hc with rfl | hc
      · decide
      · exact hrest.high c hc
  · intro i hi
    match i, hi with
    | 0, hi => exact absurd hi (by simp [cr, sp])
    | 1, hi => exact absurd hi (by simp [lf, sp])
    | i + 2, hi =>
      rw [List.getElem?_cons_succ, List.getElem?_cons_succ] at hi ⊢
      exact hrest.colon i hi
  · intro i c hi hc
    match i, hi with
    | 0, hi =>
      rw [List.getElem?_cons_zero, Option.some.injEq] at hi
      exact .inr (.inl ⟨hi.symm, rfl⟩)
    | 1, hi =>
      rw [List.getElem?_cons_succ, List.getElem?_cons_zero, Option.some.injEq] at hi
      exact .inr (.inr ⟨hi.symm, Nat.one_pos, rfl⟩)
    | i + 2, hi =>
      rw [List.getElem?_cons_succ, List.getElem?_cons_succ] at hi ⊢
      rcases hrest.control i c hi hc with h | h | ⟨h1, h2, h3⟩
      · exact .inl h
      · exact .inr (.inl h)
      · match i, h2 with
        | i + 1, _ => exact .inr (.inr ⟨h1, Nat.succ_pos _, h3⟩)

theorem BytesOk.head {b : Byte} {rest : List Byte} (h : BytesOk (b :: rest)) :
    ¬126#8 < b ∧ ¬(b = sp ∧ rest.head? = some (chr ':')) ∧
      (¬(31#8 < b ∨ b = ht) → b = cr ∧ rest.head? = some lf) := by
  refine ⟨BitVec.not_lt.mpr (h.high b List.mem_cons_self), ?_, ?_⟩
  · rintro ⟨rfl, hnext⟩
    rw [List.head?_eq_getElem?] at hnext
    exact h.colon 0 rfl hnext
  · intro hcontrol
    rw [not_or] at hcontrol
    rcases h.control 0 b rfl (BitVec.not_lt.mp hcontrol.1) with hb | hb | ⟨-, h0, -⟩
    · exact absurd hb hcontrol.2
    · rw [List.head?_eq_getElem?]
      exact hb
    · exact absurd h0 (Nat.lt_irrefl 0)

theorem BytesOk.tail {b : Byte} {rest : List Byte} (h : BytesOk (b :: rest)) (hb : b ≠ cr) :
    BytesOk rest := by
  refine ⟨fun c hc => h.high c (List.mem_cons_of_mem _ hc), fun i => h.colon (i + 1), ?_⟩
  intro i c hi hc
  rcases h.control (i + 1) c hi hc with h1 | h1 | ⟨h1, -, h3⟩
  · exact .inl h1
  · exact .inr (.inl h1)
  · match i, h3 with
    | 0, h3 =>
      rw [Nat.zero_add, Nat.sub_self, List.getElem?_cons_zero, Option.some.injEq] at h3
      exact absurd h3 hb
    | i + 1, h3 => exact .inr (.inr ⟨h1, Nat.succ_pos _, h3⟩)

theorem BytesOk.tail_crlf {rest : List Byte} (h : BytesOk (cr :: lf :: rest)) : BytesOk rest := by
  have hmem : ∀ c ∈ rest, c ∈ cr :: lf :: rest := fun c hc =>
    List.mem_cons_of_mem _ (List.mem_cons_of_mem _ hc)
  refine ⟨fun c hc => h.high c (hmem c hc), fun i => h.colon (i + 2), ?_⟩
  intro i c hi hc
  rcases h.control (i + 2) c hi hc with h1 | h1 | ⟨h1, -, h3⟩
  · exact .inl h1
  · exact .inr (.inl h1)
  · match i, h3 with
    | 0, h3 => exact absurd h3 (by simp [lf, cr])
    | i + 1, h3 => exact .inr (.inr ⟨h1, Nat.succ_pos _, h3⟩)

theorem chkBytes_iff : (hdr : List Byte) → (chkBytes hdr = 0 ↔ BytesOk hdr)
  | [] => ⟨fun _ => bytesOk_nil, fun _ => rfl⟩
  | [b] => by
    constructor
    · intro h
      rw [chkBytes] at h
      split at h
      case isTrue => exact absurd h (by decide)
      case isFalse hhigh =>
        split at h
        case isTrue => exact absurd h (by decide)
        case isFalse hcolon =>
          split at h
          case isTrue hcontrol => exact bytesOk_cons hhigh hcolon hcontrol bytesOk_nil
          case isFalse => exact absurd h (by decide)
    · intro h
      rcases h.head with ⟨hhigh, hcolon, hcontrol⟩
      rw [chkBytes, if_neg hhigh, if_neg hcolon, if_pos]
      · rfl
      · by_contra hcon
        exact absurd (hcontrol hcon).2 nofun
  | b :: c :: rest => by
    have ih := chkBytes_iff (c :: rest)
    have ih' := chkBytes_iff rest
    constructor
    · intro h
      rw [chkBytes] at h
      split at h
      case isTrue => exact absurd h (by decide)
      case isFalse hhigh =>
        split at h
        case isTrue => exact absurd h (by decide)
        case isFalse hcolon =>
          split at h
          -- a byte of its own, or CR and LF together
          case isTrue hcontrol => exact bytesOk_cons hhigh hcolon hcontrol (ih.mp h)
          case isFalse =>
            split at h
            case isTrue hcrlf =>
              rcases hcrlf with ⟨rfl, rfl⟩
              exact bytesOk_crlf (ih'.mp h)
            case isFalse => exact absurd h (by decide)
    · intro h
      rcases h.head with ⟨hhigh, hcolon, hcontrol⟩
      rw [chkBytes, if_neg hhigh, if_neg hcolon]
      split
      case isTrue hok =>
        have hb : b ≠ cr := by
          rintro rfl
          exact absurd hok (by decide)
        exact ih.mpr (h.tail hb)
      case isFalse hok =>
        have hcrlf := hcontrol hok
        rw [List.head?_cons, Option.some.injEq] at hcrlf
        rcases hcrlf with ⟨rfl, rfl⟩
        simp only [and_self, if_true]
        exact ih'.mpr h.tail_crlf

/-! ## The guard -/

/-- The names the guard counts. -/
def guardedNames : List (List Byte) := [host, contentLength, transferEncoding]

/-- No field with one of these names is right behind a line without `:`. -/
def Exposed (hdr : List Byte) : Prop :=
  ∀ name ∈ guardedNames, ∀ f ∈ hidden false (scanned hdr), named name f = false

/-- A block that cannot be read as two requests. -/
structure Guarded (hdr : List Byte) (methodCode : Nat) : Prop where
  bytes : BytesOk hdr
  host : fieldCount hdr host ≤ 1
  contentLength : fieldCount hdr contentLength ≤ 1
  transferEncoding : fieldCount hdr transferEncoding ≤ 1
  both : fieldCount hdr Http.contentLength = 0 ∨ fieldCount hdr Http.transferEncoding = 0
  get : methodCode = methodGet → fieldCount hdr Http.contentLength = 0

theorem guardedNames_ok : ∀ name ∈ guardedNames,
    cr ∉ name.map lower ∧ ¬Folded (name.map lower) := by decide

theorem httpHdrValGetCount_fieldCount {name : List Byte} (hname : name ∈ guardedNames) :
    httpHdrValGetCount hdr name = .ok (fieldCount hdr name) ↔
      ∀ f ∈ hidden false (scanned hdr), named name f = false := by
  have hok := guardedNames_ok name hname
  have hsum := countP_visible name false (scanned hdr)
  rw [countP_scanned hok.2] at hsum
  rw [httpHdrValGetCount_eq hok.1, Except.ok.injEq]
  have hzero : (hidden false (scanned hdr)).countP (named name) = 0 ↔
      ∀ f ∈ hidden false (scanned hdr), named name f = false := by
    rw [List.countP_eq_zero]
    simp only [Bool.not_eq_true]
  rw [← hzero]
  omega

theorem httpReqSecChk_eq_zero (methodCode h c t : Nat)
    (hh : httpHdrValGetCount hdr host = .ok h) (hc : httpHdrValGetCount hdr contentLength = .ok c)
    (ht : httpHdrValGetCount hdr transferEncoding = .ok t) :
    httpReqSecChk hdr methodCode = .ok 0 ↔ chkBytes hdr = 0 ∧ h ≤ 1 ∧ c ≤ 1 ∧ t ≤ 1 ∧
      (c = 0 ∨ t = 0) ∧ (methodCode = methodGet → c = 0) := by
  unfold httpReqSecChk
  rw [hh, hc, ht]
  by_cases hbytes : chkBytes hdr = 0
  · rw [if_neg (not_not_intro hbytes)]
    simp only [bind, Except.bind, pure, Except.pure]
    split
    · simp only [Except.ok.injEq]; omega
    · split
      · simp only [Except.ok.injEq]; omega
      · split
        · simp only [Except.ok.injEq]; omega
        · split
          · simp only [Except.ok.injEq]; omega
          · split
            · simp only [Except.ok.injEq]; omega
            · simp only [true_iff]; omega
  · rw [if_pos hbytes, Except.ok.injEq]
    exact ⟨fun h => absurd h hbytes, fun h => absurd h.1 hbytes⟩

/-- The counts of the guard are those of the fields exactly if no field it looks for is hidden behind
a line without `:`, and then it accepts the blocks that cannot be read as two requests.  Its byte
checks hold for every block. -/
theorem httpReqSecChk_guard (hdr : List Byte) (methodCode : Nat) :
    (Exposed hdr ↔
      ∀ name ∈ guardedNames, httpHdrValGetCount hdr name = .ok (fieldCount hdr name)) ∧
    (Exposed hdr → (httpReqSecChk hdr methodCode = .ok 0 ↔ Guarded hdr methodCode)) ∧
    (httpReqSecChk hdr methodCode = .ok 0 → BytesOk hdr) := by
  have hcounts : Exposed hdr ↔
      ∀ name ∈ guardedNames, httpHdrValGetCount hdr name = .ok (fieldCount hdr name) := by
    constructor
    · intro h name hname
      exact (httpHdrValGetCount_fieldCount hname).mpr (h name hname)
    · intro h name hname
      exact (httpHdrValGetCount_fieldCount hname).mp (h name hname)
  refine ⟨hcounts, ?_, ?_⟩
  · intro hexposed
    have hcount := hcounts.mp hexposed
    rw [httpReqSecChk_eq_zero methodCode _ _ _ (hcount host (by decide))
      (hcount contentLength (by decide)) (hcount transferEncoding (by decide)), chkBytes_iff]
    constructor
    · rintro ⟨h1, h2, h3, h4, h5, h6⟩
      exact ⟨h1, h2, h3, h4, h5, h6⟩
    · rintro ⟨h1, h2, h3, h4, h5, h6⟩
      exact ⟨h1, h2, h3, h4, h5, h6⟩
  · intro h
    have hname : ∀ name ∈ guardedNames, cr ∉ name.map lower :=
      fun name hname => (guardedNames_ok name hname).1
    have hzero := (httpReqSecChk_eq_zero methodCode _ _ _
      (httpHdrValGetCount_eq (hname host (by decide)))
      (httpHdrValGetCount_eq (hname contentLength (by decide)))
      (httpHdrValGetCount_eq (hname transferEncoding (by decide)))).mp h
    exact (chkBytes_iff hdr).mp hzero.1

/-- The request `GET /` with one `Host` field. -/
theorem httpReqSecChk_guard_get :
    Guarded ("GET / HTTP/1.1\r\nHost: a\r\n".toList.map chr) methodGet :=
  ((httpReqSecChk_guard ("GET / HTTP/1.1\r\nHost: a\r\n".toList.map chr) methodGet).2.1
    (by unfold Exposed; decide +kernel)).mp (by decide +kernel)

/-- A request where a line without `:` hides the first of two `Host` fields. -/
def hiddenHost : List Byte := "GET / HTTP/1.1\r\nx\r\nHost: a\r\nHost: b\r\n".toList.map chr

theorem httpReqSecChk_not_guard :
    httpReqSecChk hiddenHost methodGet = .ok 0 ∧ ¬Guarded hiddenHost methodGet := by
  constructor
  · decide +kernel
  · intro h
    have htwo : fieldCount hiddenHost host = 2 := by decide +kernel
    have hone := h.host
    omega

end Http
