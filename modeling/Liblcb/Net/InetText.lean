import Liblcb.Utils.Wire

/-!
# Texts of addresses

What the socket address code relies on in `inet_ntop` and `inet_pton`, and a plain pair that has it:
decimal octets between dots, hexadecimal groups between colons with no run of zeros left out.
-/

namespace Net

open Mem

/-- `inet_ntop` and `inet_pton` of the two families, the texts without their terminating zero. -/
structure Inet where
  ntop4 : BitVec 32 → List Byte
  ntop6 : BitVec 128 → List Byte
  pton4 : List Byte → Option (BitVec 32)
  pton6 : List Byte → Option (BitVec 128)

/-- `0` to `9`. -/
def IsDec (b : Byte) : Prop := 0x30#8 ≤ b ∧ b ≤ 0x39#8

/-- `0` to `9`, `a` to `f`. -/
def IsHex (b : Byte) : Prop := IsDec b ∨ 0x61#8 ≤ b ∧ b ≤ 0x66#8

instance (b : Byte) : Decidable (IsDec b) := inferInstanceAs (Decidable (_ ∧ _))

instance (b : Byte) : Decidable (IsHex b) := inferInstanceAs (Decidable (_ ∨ _))

/-- What is known of the texts, and that the two functions undo each other. -/
structure Inet.Documented (I : Inet) : Prop where
  pton4_ntop4 : ∀ a, I.pton4 (I.ntop4 a) = some a
  pton6_ntop6 : ∀ a, I.pton6 (I.ntop6 a) = some a
  /-- only dotted decimal text is an IPv4 address -/
  dotted : ∀ {text a}, I.pton4 text = some a → ∀ b ∈ text, IsDec b ∨ b = chr '.'
  ne_nil : ∀ a, I.ntop4 a ≠ []
  /-- `INET_ADDRSTRLEN` -/
  length4 : ∀ a, (I.ntop4 a).length < 16
  hextets : ∀ a, ∀ b ∈ I.ntop6 a, IsHex b ∨ b = chr ':' ∨ b = chr '.'
  /-- the shortest text is `::` -/
  colons : ∀ a, 2 ≤ (I.ntop6 a).count (chr ':')
  /-- `INET6_ADDRSTRLEN` -/
  length6 : ∀ a, (I.ntop6 a).length < 46

/-! ## Digits -/

def digitChar (d : Nat) : Byte := BitVec.ofNat 8 (if d < 10 then 48 + d else 87 + d)

def digitVal (b : Byte) : Nat := if b ≤ 0x39#8 then b.toNat - 48 else b.toNat - 87

/-- `n` in base `b`, with at most as many digits as the first argument after `b` says. -/
def numeral (b : Nat) : Nat → Nat → List Byte
  | 0, _ => []
  | k + 1, n => if n < b then [digitChar n] else numeral b k (n / b) ++ [digitChar (n % b)]

def readNumeral (b : Nat) (text : List Byte) : Nat :=
  text.foldl (fun n c => n * b + digitVal c) 0

theorem digitVal_digitChar : ∀ d < 16, digitVal (digitChar d) = d := by decide

theorem isDec_digitChar : ∀ d < 10, IsDec (digitChar d) := by decide

theorem isHex_digitChar : ∀ d < 16, IsHex (digitChar d) := by decide

theorem mem_numeral {b : Nat} (hb : 0 < b) {c : Byte} : ∀ {k n : Nat}, c ∈ numeral b k n →
    ∃ d < b, c = digitChar d
  | 0, _, h => by cases h
  | k + 1, n, h => by
    rw [numeral] at h
    split at h
    · next hn => exact ⟨n, hn, List.mem_singleton.mp h⟩
    · rw [List.mem_append, List.mem_singleton] at h
      rcases h with h | h
      · exact mem_numeral hb h
      · exact ⟨n % b, Nat.mod_lt n hb, h⟩

theorem length_numeral_le (b : Nat) : ∀ k n : Nat, (numeral b k n).length ≤ k
  | 0, _ => Nat.le_refl 0
  | k + 1, n => by
    rw [numeral]
    split
    · exact Nat.le_add_left 1 k
    · rw [List.length_append]
      exact Nat.succ_le_succ (length_numeral_le b k (n / b))

theorem readNumeral_numeral {b : Nat} (hb : 0 < b) (hb' : b ≤ 16) : ∀ {k n : Nat}, n < b ^ (k + 1) →
    readNumeral b (numeral b (k + 1) n) = n
  | k, n, h => by
    rw [numeral]
    split
    · next hn =>
      rw [readNumeral, List.foldl_cons, List.foldl_nil, Nat.zero_mul, Nat.zero_add,
        digitVal_digitChar n (by omega)]
    · next hn =>
      have hmod := Nat.mod_lt n hb
      cases k with
      | zero => exact absurd (by rwa [Nat.zero_add, Nat.pow_one] at h) hn
      | succ k =>
        have hdiv : n / b < b ^ (k + 1) := by
          rw [Nat.div_lt_iff_lt_mul hb, ← Nat.pow_succ]
          exact h
        have ih := readNumeral_numeral hb hb' hdiv
        rw [readNumeral] at ih
        rw [readNumeral, List.foldl_append, ih, List.foldl_cons, List.foldl_nil,
          digitVal_digitChar _ (by omega), Nat.mul_comm]
        exact Nat.div_add_mod n b

/-! ## Groups -/

/-- The last `count` groups of `w` bits. -/
def groups (w : Nat) : Nat → Nat → List Nat
  | 0, _ => []
  | count + 1, n => groups w count (n / 2 ^ w) ++ [n % 2 ^ w]

def ofGroups (w : Nat) (gs : List Nat) : Nat := gs.foldl (fun n g => n * 2 ^ w + g) 0

/-- The groups as numerals of at most `k` digits. -/
def groupsText (sep : Byte) (b k w count n : Nat) : List Byte :=
  [sep].intercalate ((groups w count n).map (numeral b k))

def readGroups (sep : Byte) (b w : Nat) (text : List Byte) : Nat :=
  ofGroups w ((text.splitOn sep).map (readNumeral b))

@[simp] theorem length_groups (w : Nat) : ∀ count n, (groups w count n).length = count
  | 0, _ => rfl
  | count + 1, n => by
    rw [groups, List.length_append, length_groups w count, List.length_singleton]

theorem lt_of_mem_groups {w g : Nat} : ∀ {count n : Nat}, g ∈ groups w count n → g < 2 ^ w
  | 0, _, h => by cases h
  | count + 1, n, h => by
    rw [groups, List.mem_append, List.mem_singleton] at h
    rcases h with h | h
    · exact lt_of_mem_groups h
    · rw [h]
      exact Nat.mod_lt n (Nat.two_pow_pos w)

theorem ofGroups_groups (w : Nat) : ∀ {count n : Nat}, n < 2 ^ (w * count) →
    ofGroups w (groups w count n) = n
  | 0, n, h => by
    rw [Nat.mul_zero, Nat.pow_zero, Nat.lt_one_iff] at h
    rw [h]
    rfl
  | count + 1, n, h => by
    have hdiv : n / 2 ^ w < 2 ^ (w * count) := by
      rw [Nat.div_lt_iff_lt_mul (Nat.two_pow_pos w), ← Nat.pow_add, ← Nat.mul_succ]
      exact h
    have ih := ofGroups_groups w hdiv
    rw [ofGroups] at ih
    rw [ofGroups, groups, List.foldl_append, ih, List.foldl_cons, List.foldl_nil, Nat.mul_comm]
    exact Nat.div_add_mod n (2 ^ w)

variable {sep : Byte} {b k w count n : Nat}

theorem groups_ne_nil (w count n : Nat) : groups w (count + 1) n ≠ [] := by
  rw [groups]
  simp

theorem not_mem_numeral (hb : 0 < b) (hsep : ∀ d < b, sep ≠ digitChar d) :
    sep ∉ numeral b k n := by
  intro h
  rcases mem_numeral hb h with ⟨d, hd, heq⟩
  exact hsep d hd heq

theorem readGroups_groupsText (hb : 0 < b) (hb' : b ≤ 16) (hsep : ∀ d < b, sep ≠ digitChar d)
    (hk : 2 ^ w ≤ b ^ (k + 1)) (hn : n < 2 ^ (w * (count + 1))) :
    readGroups sep b w (groupsText sep b (k + 1) w (count + 1) n) = n := by
  have hparts : ∀ l ∈ (groups w (count + 1) n).map (numeral b (k + 1)), sep ∉ l := by
    intro l hl
    rcases List.mem_map.mp hl with ⟨g, -, rfl⟩
    exact not_mem_numeral hb hsep
  have hread : ((groups w (count + 1) n).map (numeral b (k + 1))).map (readNumeral b) =
      groups w (count + 1) n := by
    rw [List.map_map]
    conv_rhs => rw [← List.map_id (groups w (count + 1) n)]
    apply List.map_congr_left
    intro g hg
    exact readNumeral_numeral hb hb' (Nat.lt_of_lt_of_le (lt_of_mem_groups hg) hk)
  rw [readGroups, groupsText, List.splitOn_intercalate _ hparts, hread, ofGroups_groups w hn]
  exact mt List.map_eq_nil_iff.mp (groups_ne_nil w count n)

theorem mem_intercalate {c : Byte} : ∀ {parts : List (List Byte)}, c ∈ [sep].intercalate parts →
    c = sep ∨ ∃ l ∈ parts, c ∈ l
  | [], h => by cases h
  | [l], h => by
    rw [List.intercalate_singleton] at h
    exact .inr ⟨l, .head _, h⟩
  | l :: l' :: parts, h => by
    rw [List.intercalate_cons_cons, List.append_assoc, List.mem_append, List.mem_append,
      List.mem_singleton] at h
    rcases h with h | h | h
    · exact .inr ⟨l, .head _, h⟩
    · exact .inl h
    · rcases mem_intercalate h with h | ⟨m, hm, hc⟩
      · exact .inl h
      · exact .inr ⟨m, .tail _ hm, hc⟩

theorem mem_groupsText (hb : 0 < b) {c : Byte} (h : c ∈ groupsText sep b k w count n) :
    c = sep ∨ ∃ d < b, c = digitChar d := by
  rcases mem_intercalate h with h | ⟨l, hl, hc⟩
  · exact .inl h
  · rcases List.mem_map.mp hl with ⟨g, -, rfl⟩
    exact .inr (mem_numeral hb hc)

theorem count_intercalate : ∀ {parts : List (List Byte)}, (∀ l ∈ parts, sep ∉ l) →
    ([sep].intercalate parts).count sep = parts.length - 1
  | [], _ => rfl
  | [l], h => by
    rw [List.intercalate_singleton, List.count_eq_zero_of_not_mem (h l (.head _))]
    rfl
  | l :: l' :: parts, h => by
    rw [List.intercalate_cons_cons, List.count_append, List.count_append,
      List.count_eq_zero_of_not_mem (h l (.head _)), List.count_singleton_self,
      count_intercalate fun m hm => h m (.tail _ hm)]
    exact Nat.add_comm _ _

theorem length_intercalate_le : ∀ {parts : List (List Byte)}, (∀ l ∈ parts, l.length ≤ k) →
    ([sep].intercalate parts).length ≤ parts.length * (k + 1) - 1
  | [], _ => Nat.zero_le _
  | [l], h => by
    rw [List.intercalate_singleton, List.length_singleton, Nat.one_mul]
    exact h l (.head _)
  | l :: l' :: parts, h => by
    have hl := h l (.head _)
    have ih := length_intercalate_le fun m hm => h m (.tail _ hm)
    have hpos : 0 < (l' :: parts).length * (k + 1) :=
      Nat.mul_pos (Nat.succ_pos _) (Nat.succ_pos k)
    rw [List.intercalate_cons_cons, List.length_append, List.length_append,
      List.length_singleton, List.length_cons (a := l), Nat.succ_mul]
    omega

theorem count_groupsText (hb : 0 < b) (hsep : ∀ d < b, sep ≠ digitChar d) :
    (groupsText sep b k w count n).count sep = count - 1 := by
  rw [groupsText, count_intercalate, List.length_map, length_groups]
  intro l hl
  rcases List.mem_map.mp hl with ⟨g, -, rfl⟩
  exact not_mem_numeral hb hsep

theorem length_groupsText_le : (groupsText sep b k w count n).length ≤ count * (k + 1) - 1 := by
  have h := @length_intercalate_le sep k ((groups w count n).map (numeral b k))
  rw [List.length_map, length_groups] at h
  apply h
  intro l hl
  rcases List.mem_map.mp hl with ⟨g, -, rfl⟩
  exact length_numeral_le b k g

/-! ## The plain pair -/

/-- Every octet and every group is printed, and only what is printed is read. -/
def plainInet : Inet where
  ntop4 a := groupsText (chr '.') 10 3 8 4 a.toNat
  ntop6 a := groupsText (chr ':') 16 4 16 8 a.toNat
  pton4 text :=
    let a := BitVec.ofNat 32 (readGroups (chr '.') 10 8 text)
    if groupsText (chr '.') 10 3 8 4 a.toNat = text then some a else none
  pton6 text :=
    let a := BitVec.ofNat 128 (readGroups (chr ':') 16 16 text)
    if groupsText (chr ':') 16 4 16 8 a.toNat = text then some a else none

theorem plainInet_documented : plainInet.Documented where
  pton4_ntop4 a := by
    have hread : readGroups (chr '.') 10 8 (groupsText (chr '.') 10 3 8 4 a.toNat) = a.toNat :=
      readGroups_groupsText (by decide) (by decide) (by decide) (by decide) a.isLt
    simp only [plainInet, hread, BitVec.ofNat_toNat, BitVec.setWidth_eq, if_true]
  pton6_ntop6 a := by
    have hread : readGroups (chr ':') 16 16 (groupsText (chr ':') 16 4 16 8 a.toNat) = a.toNat :=
      readGroups_groupsText (by decide) (by decide) (by decide) (by decide) a.isLt
    simp only [plainInet, hread, BitVec.ofNat_toNat, BitVec.setWidth_eq, if_true]
  dotted {text a} h b hb := by
    have htext : ∃ n, groupsText (chr '.') 10 3 8 4 n = text := by
      simp only [plainInet] at h
      split at h
      · next heq => exact ⟨_, heq⟩
      · cases h
    obtain ⟨n, rfl⟩ := htext
    rcases mem_groupsText (by decide) hb with hdot | ⟨d, hd, rfl⟩
    · exact .inr hdot
    · exact .inl (isDec_digitChar d hd)
  ne_nil a h := by
    have hcount := @count_groupsText (chr '.') 10 3 8 4 a.toNat (by decide) (by decide)
    have hnil : groupsText (chr '.') 10 3 8 4 a.toNat = [] := h
    rw [hnil] at hcount
    cases hcount
  length4 a := by
    have hlen := @length_groupsText_le (chr '.') 10 3 8 4 a.toNat
    exact Nat.lt_of_le_of_lt hlen (by decide)
  hextets a b hb := by
    rcases mem_groupsText (by decide) hb with hcolon | ⟨d, hd, rfl⟩
    · exact .inr (.inl hcolon)
    · exact .inl (isHex_digitChar d hd)
  colons a := by
    have hcount := @count_groupsText (chr ':') 16 4 16 8 a.toNat (by decide) (by decide)
    exact Nat.le_trans (by decide) (Nat.le_of_eq hcount.symm)
  length6 a := by
    have hlen := @length_groupsText_le (chr ':') 16 4 16 8 a.toNat
    exact Nat.lt_of_le_of_lt hlen (by decide)

end Net
