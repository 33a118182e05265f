import Liblcb.Proto.HttpSnd

/-!
# The bytes of an HTTP response

What `http_srv_snd` hands to the socket, now and later, and when that is a response.
-/

namespace Http

open Mem Buffer Num2Str

/-- The status line, without its CRLF. -/
def statusLine (cli : Cli) : List Byte :=
  str "HTTP/" ++ BtEncode.decimal cli.major.val ++ str "." ++ BtEncode.decimal cli.minor.val ++
    str " " ++ BtEncode.decimal cli.resp.statusCode.toNat ++ str " " ++ cli.reason

/-- Header lines, each ended by a CRLF. -/
def headerBlock (lines : List (List Byte)) : List Byte := lines.flatMap (· ++ crlf)

/-- The body the response is to have. -/
def Cli.content (cli : Cli) : List Byte := if cli.genPage then errPage cli else cli.body

def contentLengthName : List Byte := str "Content-Length:"

/-- The bytes are a status line, header lines, an empty line and the body, and a Content-Length that
the server adds has the length of the body. -/
def WellFormed (cli : Cli) (bytes : List Byte) : Prop :=
  ∃ std custom : List (List Byte), (∀ line ∈ std ++ custom, line ≠ [] ∧ NoBreak line) ∧
    (∀ line ∈ custom, line ∈ cli.resp.hdrs ∨ line ++ crlf ∈ cli.resp.hdrs) ∧
    bytes = statusLine cli ++ crlf ++ headerBlock (std ++ custom) ++ crlf ++ cli.content ∧
    ∀ line ∈ std, ∀ value, line = contentLengthName ++ value →
      value.dropWhile (· = sp) = BtEncode.decimal cli.content.length

/-- The texts a caller gives are lines: a reason phrase may have line breaks at its end, and a custom
header a CRLF. -/
structure Lines (cli : Cli) : Prop where
  reason : ∀ phrase ∈ cli.resp.reasonPhrase, ∃ text tail, phrase = text ++ tail ∧ NoBreak text ∧
    ∀ b ∈ tail, b = cr ∨ b = lf
  hdrs : ∀ hdr ∈ cli.resp.hdrs, ∃ line, NoBreak line ∧ (hdr = line ∨ hdr = line ++ crlf)

/-! ## Lines -/

instance (text : List Byte) : Decidable (NoBreak text) := inferInstanceAs (Decidable (_ ∧ _))

theorem NoBreak.append {as bs : List Byte} (ha : NoBreak as) (hb : NoBreak bs) : NoBreak (as ++ bs) := by
  constructor
  · intro hmem
    exact (List.mem_append.mp hmem).elim ha.1 hb.1
  · intro hmem
    exact (List.mem_append.mp hmem).elim ha.2 hb.2

theorem noBreak_nil : NoBreak [] := ⟨List.not_mem_nil, List.not_mem_nil⟩

theorem noBreak_decimal (n : Nat) : NoBreak (BtEncode.decimal n) := by
  constructor
  · intro hmem
    have hdigit := BtEncode.isDigit_of_mem_decimal n cr hmem
    exact absurd hdigit.1 (by decide)
  · intro hmem
    have hdigit := BtEncode.isDigit_of_mem_decimal n lf hmem
    exact absurd hdigit.1 (by decide)

theorem headerBlock_append (as bs : List (List Byte)) :
    headerBlock (as ++ bs) = headerBlock as ++ headerBlock bs := List.flatMap_append

theorem headerBlock_cons (line : List Byte) (lines : List (List Byte)) :
    headerBlock (line :: lines) = line ++ crlf ++ headerBlock lines := List.flatMap_cons

theorem line_unique : ∀ {as bs rest rest' : List Byte}, cr ∉ as → cr ∉ bs →
    as ++ crlf ++ rest = bs ++ crlf ++ rest' → as = bs
  | [], [], _, _, _, _, _ => rfl
  | [], b :: bs, _, _, _, hb, h => by
    have hhead : cr = b := (List.cons.inj h).1
    exact absurd (hhead ▸ List.mem_cons_self) hb
  | a :: as, [], _, _, ha, _, h => by
    have hhead : a = cr := (List.cons.inj h).1
    exact absurd (hhead ▸ List.mem_cons_self) ha
  | a :: as, b :: bs, _, _, ha, hb, h => by
    have htail := line_unique (fun hm => ha (List.mem_cons_of_mem a hm))
      (fun hm => hb (List.mem_cons_of_mem b hm)) (List.cons.inj h).2
    rw [(List.cons.inj h).1, htail]

theorem noBreak_httpGetErrDescr (code : Nat) : NoBreak (httpGetErrDescr code) := by
  have hphrase : ∀ phrases : List String, (∀ s ∈ phrases, NoBreak (str s)) → ∀ i,
      NoBreak (str (phrases.getD i "")) := by
    intro phrases hall i
    rw [List.getD_eq_getElem?_getD]
    cases hget : phrases[i]? with
    | none => exact noBreak_nil
    | some s => exact hall s (List.mem_of_getElem? hget)
  unfold httpGetErrDescr
  split
  · exact noBreak_nil
  split
  · exact hphrase _ (by decide +kernel) _
  split
  · exact hphrase _ (by decide +kernel) _
  split
  · exact hphrase _ (by decide +kernel) _
  split
  · exact hphrase _ (by decide +kernel) _
  split
  · exact hphrase _ (by decide +kernel) _
  · exact noBreak_nil

theorem noBreak_reason {cli : Cli} (hlines : Lines cli) : NoBreak cli.reason := by
  unfold Cli.reason
  cases hphrase : cli.resp.reasonPhrase with
  | none => exact noBreak_httpGetErrDescr _
  | some phrase =>
    rcases hlines.reason phrase hphrase with ⟨text, tail, rfl, htext, htail⟩
    have hdrop : (text ++ tail).rdropWhile (fun b => b = cr ∨ b = lf) =
        text.rdropWhile fun b => b = cr ∨ b = lf := by
      rw [List.rdropWhile, List.reverse_append, List.dropWhile_append_of_pos, List.rdropWhile]
      intro b hb
      exact decide_eq_true (htail b (List.mem_reverse.mp hb))
    show NoBreak ((text ++ tail).rdropWhile fun b => b = cr ∨ b = lf)
    rw [hdrop]
    have hsub := (List.rdropWhile_prefix (fun b => b = cr ∨ b = lf) text).subset
    exact ⟨fun hmem => htext.1 (hsub hmem), fun hmem => htext.2 (hsub hmem)⟩

/-! ## Numbers -/

theorem putNum_ok {front text : List Byte} {last : Byte} {num : Nat} (hnum : num < 2 ^ 64)
    (h : putNum (front ++ [last]) num = .ok text) :
    (¬ IsPow10 num ∧ text = front ++ [last] ++ BtEncode.decimal num) ∨
      (IsPow10 num ∧ text = front ++ BtEncode.decimal num) := by
  rcases unum2str_ok hnum h with ⟨hshort, hexact⟩
  by_cases hpow : IsPow10 num
  · right
    have htext := hshort hpow
    rw [List.dropLast_concat] at htext
    exact ⟨hpow, htext⟩
  · exact .inl ⟨hpow, hexact hpow⟩

theorem not_isPow10_digit (digit : Fin 10) : ¬ IsPow10 digit.val := by
  rintro ⟨k, hk⟩
  have hpos : 1 ≤ 10 ^ k := Nat.one_le_pow _ _ (by decide)
  have hlt := digit.isLt
  rw [Nat.pow_succ] at hk
  omega

/-! ## The response line -/

def versionText (cli : Cli) : List Byte :=
  str "HTTP/" ++ BtEncode.decimal cli.major.val ++ str "." ++ BtEncode.decimal cli.minor.val

theorem noBreak_versionText (cli : Cli) : NoBreak (versionText cli) :=
  (((NoBreak.append (by decide) (noBreak_decimal _)).append (by decide)).append (noBreak_decimal _))

def codeText (cli : Cli) : List Byte :=
  BtEncode.decimal cli.resp.statusCode.toNat ++ str " " ++ cli.reason

theorem noBreak_codeText {cli : Cli} (hlines : Lines cli) : NoBreak (codeText cli) :=
  ((noBreak_decimal _).append (by decide)).append (noBreak_reason hlines)

theorem statusLine_eq (cli : Cli) : statusLine cli = versionText cli ++ [sp] ++ codeText cli := by
  simp only [statusLine, versionText, codeText, List.append_assoc]
  rfl

theorem respLine_ok {cli : Cli} {hdrs : List Byte} (h : respLine cli = .ok hdrs) :
    (¬ IsPow10 cli.resp.statusCode.toNat ∧ hdrs = statusLine cli ++ crlf) ∨
      (IsPow10 cli.resp.statusCode.toNat ∧ hdrs = versionText cli ++ codeText cli ++ crlf) := by
  unfold respLine at h
  replace ⟨major, hmajor, h⟩ := Mem.bind_ok h
  replace ⟨minor, hminor, h⟩ := Mem.bind_ok h
  replace ⟨code, hcode, h⟩ := Mem.bind_ok h
  have hdigit : ∀ digit : Fin 10, digit.val < 2 ^ 64 := fun digit => by have := digit.isLt; omega
  have hmajor := (unum2str_ok (hdigit cli.major) hmajor).2 (not_isPow10_digit cli.major)
  have hminor := (unum2str_ok (hdigit cli.minor) hminor).2 (not_isPow10_digit cli.minor)
  have hversion : minor = versionText cli := by
    rw [hminor, hmajor]
    rfl
  have hspace : str " " = [sp] := by decide
  rw [hversion, hspace] at hcode
  have hhdrs := (Except.ok.inj h).symm
  have hcode64 : cli.resp.statusCode.toNat < 2 ^ 64 := by have := cli.resp.statusCode.isLt; omega
  rcases putNum_ok hcode64 hcode with ⟨hpow, rfl⟩ | ⟨hpow, rfl⟩
  · left
    refine ⟨hpow, ?_⟩
    rw [hhdrs, statusLine_eq, codeText]
    simp only [List.append_assoc]
  · right
    refine ⟨hpow, ?_⟩
    rw [hhdrs, codeText]
    simp only [List.append_assoc]

/-! ## The headers -/

/-- A line of the standard headers of a response with a body of `size` bytes. -/
structure StdLine (size : Nat) (line : List Byte) : Prop where
  ne_nil : line ≠ []
  noBreak : NoBreak line
  contentLength : ∀ value, line = contentLengthName ++ value →
    value.dropWhile (· = sp) = BtEncode.decimal size

theorem StdLine.of_name (size : Nat) {name rest : List Byte} (hname : NoBreak name)
    (hrest : NoBreak rest) (hother : name.take 4 ≠ contentLengthName.take 4) (hlen : 4 ≤ name.length) :
    StdLine size (name ++ rest) where
  ne_nil := by
    intro hnil
    rw [(List.append_eq_nil_iff.mp hnil).1] at hlen
    exact absurd hlen (by decide)
  noBreak := hname.append hrest
  contentLength := by
    intro value heq
    have htake := congrArg (List.take 4) heq
    rw [List.take_append_of_le_length hlen, List.take_append_of_le_length (by decide)] at htake
    exact absurd htake hother

theorem StdLine.of_contentLength (size : Nat) {gap : List Byte} (hgap : gap = [sp] ∨ gap = []) :
    StdLine size (contentLengthName ++ gap ++ BtEncode.decimal size) where
  ne_nil := by
    intro hnil
    exact absurd (List.append_eq_nil_iff.mp (List.append_eq_nil_iff.mp hnil).1).1 (by decide)
  noBreak := by
    have hbreak : NoBreak gap := by
      rcases hgap with rfl | rfl
      · decide
      · exact noBreak_nil
    exact (NoBreak.append (by decide) hbreak).append (noBreak_decimal size)
  contentLength := by
    intro value heq
    rw [List.append_assoc, List.append_cancel_left_eq] at heq
    -- no digit is a space
    have hdigits : (BtEncode.decimal size).dropWhile (· = sp) = BtEncode.decimal size := by
      cases hdec : BtEncode.decimal size with
      | nil => rfl
      | cons d ds =>
        have hdigit := BtEncode.isDigit_of_mem_decimal size d (hdec ▸ List.mem_cons_self)
        have hne : d ≠ sp := by
          rintro rfl
          exact absurd hdigit.1 (by decide)
        exact List.dropWhile_cons_of_neg (by rw [decide_eq_false hne]; decide)
    rw [← heq]
    rcases hgap with rfl | rfl
    · rw [List.singleton_append, List.dropWhile_cons_of_pos (by decide)]
      exact hdigits
    · exact hdigits

def Adds (size : Nat) (hdrs hdrs' : List Byte) : Prop :=
  ∃ std, (∀ line ∈ std, StdLine size line) ∧ hdrs' = hdrs ++ headerBlock std

theorem Adds.refl (size : Nat) (hdrs : List Byte) : Adds size hdrs hdrs :=
  ⟨[], fun _ hline => absurd hline List.not_mem_nil, (List.append_nil hdrs).symm⟩

theorem Adds.trans {size : Nat} {as bs cs : List Byte} (hab : Adds size as bs) (hbc : Adds size bs cs) :
    Adds size as cs := by
  rcases hab with ⟨std, hstd, rfl⟩
  rcases hbc with ⟨std', hstd', rfl⟩
  refine ⟨std ++ std', ?_, ?_⟩
  · intro line hline
    exact (List.mem_append.mp hline).elim (hstd line) (hstd' line)
  · rw [headerBlock_append, List.append_assoc]

theorem Adds.line {size : Nat} {line : List Byte} (hdrs : List Byte) (hline : StdLine size line) :
    Adds size hdrs (hdrs ++ (line ++ crlf)) := by
  refine ⟨[line], ?_, ?_⟩
  · intro l hl
    rw [List.mem_singleton.mp hl]
    exact hline
  · rw [headerBlock_cons]
    simp [headerBlock]

theorem adds_serverHdr (cli : Cli) (size : Nat) (hdrs : List Byte) :
    Adds size hdrs (serverHdr cli hdrs) := by
  unfold serverHdr
  split
  · rw [List.append_assoc, List.append_assoc, ← List.append_assoc (str "Server: ")]
    exact Adds.line hdrs (StdLine.of_name size (by decide) cli.httpServer_line (by decide) (by decide))
  · exact Adds.refl size hdrs

theorem adds_contentLengthHdr {cli : Cli} {hdrs hdrs' : List Byte}
    (h : contentLengthHdr cli hdrs = .ok hdrs') :
    Adds (cli.buf.used - cli.buf.offset) hdrs hdrs' := by
  have hbody : cli.buf.used - cli.buf.offset < 2 ^ 64 := by
    have := cli.used_le
    have := cli.size_lt
    omega
  unfold contentLengthHdr at h
  split at h
  · replace ⟨text, htext, h⟩ := Mem.bind_ok h
    have hname : str "Content-Length: " = contentLengthName ++ [sp] := by decide
    rw [hname, ← List.append_assoc] at htext
    have hhdrs := (Except.ok.inj h).symm
    rcases putNum_ok hbody htext with ⟨-, rfl⟩ | ⟨-, rfl⟩
    · have hadd := Adds.line hdrs (StdLine.of_contentLength (cli.buf.used - cli.buf.offset) (.inl rfl))
      simpa only [hhdrs, List.append_assoc] using hadd
    · have hadd := Adds.line hdrs (StdLine.of_contentLength (cli.buf.used - cli.buf.offset) (.inr rfl))
      simpa only [hhdrs, List.append_assoc, List.nil_append] using hadd
  · rw [← Except.ok.inj h]
    exact Adds.refl _ hdrs

theorem adds_connectionHdrs {cli : Cli} {size : Nat} {hdrs hdrs' : List Byte}
    (h : connectionHdrs cli hdrs = .ok hdrs') : Adds size hdrs hdrs' := by
  unfold connectionHdrs at h
  split at h
  · have hclose : str "Connection: close\r\n" = str "Connection: " ++ str "close" ++ crlf := by decide
    rw [← Except.ok.inj h, hclose]
    exact Adds.line hdrs (StdLine.of_name size (by decide) (by decide) (by decide) (by decide))
  · split at h
    · replace ⟨text, htext, h⟩ := Mem.bind_ok h
      have hkeep : str "Connection: keep-alive\r\nKeep-Alive: timeout=" =
          str "Connection: " ++ str "keep-alive" ++ crlf ++ str "Keep-Alive: timeout" ++
            [chr '='] := by decide
      have htimeout : cli.rcvTimeout.toNat / 1000 < 2 ^ 64 := by
        have := cli.rcvTimeout.isLt
        omega
      have hhdrs := (Except.ok.inj h).symm
      rw [hkeep, ← List.append_assoc] at htext
      have hfirst : Adds size hdrs (hdrs ++ (str "Connection: " ++ str "keep-alive" ++ crlf)) :=
        Adds.line hdrs (StdLine.of_name size (by decide) (by decide) (by decide) (by decide))
      refine hfirst.trans ?_
      have hname : NoBreak (str "Keep-Alive: timeout") := by decide
      have hdigits := noBreak_decimal (cli.rcvTimeout.toNat / 1000)
      have hequals : NoBreak ([chr '='] ++ BtEncode.decimal (cli.rcvTimeout.toNat / 1000)) :=
        NoBreak.append (by decide) hdigits
      rcases putNum_ok htimeout htext with ⟨-, rfl⟩ | ⟨-, rfl⟩
      · have hadd := Adds.line (hdrs ++ (str "Connection: " ++ str "keep-alive" ++ crlf))
          (StdLine.of_name size hname hequals (by decide) (by decide))
        simpa only [hhdrs, List.append_assoc] using hadd
      · have hadd := Adds.line (hdrs ++ (str "Connection: " ++ str "keep-alive" ++ crlf))
          (StdLine.of_name size hname hdigits (by decide) (by decide))
        simpa only [hhdrs, List.append_assoc] using hadd
    · rw [← Except.ok.inj h]
      exact Adds.refl size hdrs

theorem adds_stdHdrs {cli : Cli} {hdrs hdrs' : List Byte} (h : stdHdrs cli hdrs = .ok hdrs') :
    Adds (cli.buf.used - cli.buf.offset) hdrs hdrs' := by
  unfold stdHdrs at h
  replace ⟨text, htext, h⟩ := Mem.bind_ok h
  exact ((adds_serverHdr cli _ hdrs).trans (adds_contentLengthHdr htext)).trans (adds_connectionHdrs h)

/-- The custom headers are lines of the response. -/
theorem customHdrs_flatten : ∀ {hdrs : List (List Byte)},
    (∀ hdr ∈ hdrs, ∃ line, NoBreak line ∧ (hdr = line ∨ hdr = line ++ crlf)) →
    ∃ custom, (∀ line ∈ custom, (line ≠ [] ∧ NoBreak line) ∧ (line ∈ hdrs ∨ line ++ crlf ∈ hdrs)) ∧
      (customHdrs hdrs).flatten = headerBlock custom
  | [], _ => ⟨[], fun _ hline => absurd hline List.not_mem_nil, rfl⟩
  | hdr :: hdrs, hlines => by
    rcases customHdrs_flatten fun h hmem => hlines h (List.mem_cons_of_mem hdr hmem) with
      ⟨custom, hcustom, hflat⟩
    have hmem : ∀ line ∈ custom, (line ≠ [] ∧ NoBreak line) ∧
        (line ∈ hdr :: hdrs ∨ line ++ crlf ∈ hdr :: hdrs) := by
      intro line hline
      exact ⟨(hcustom line hline).1, (hcustom line hline).2.imp (List.mem_cons_of_mem hdr)
        (List.mem_cons_of_mem hdr)⟩
    rcases hlines hdr List.mem_cons_self with ⟨line, hbreak, hhdr⟩
    rw [customHdrs]
    by_cases hshort : hdr.length < 3
    · rw [if_pos hshort]
      exact ⟨custom, hmem, hflat⟩
    rw [if_neg hshort]
    have hne : line ≠ [] := by
      rintro rfl
      rcases hhdr with rfl | rfl
      · exact hshort (by decide)
      · exact hshort (by decide)
    have hadd : ∀ l ∈ line :: custom, (l ≠ [] ∧ NoBreak l) ∧ (l ∈ hdr :: hdrs ∨ l ++ crlf ∈ hdr :: hdrs) := by
      intro l hl
      rcases List.mem_cons.mp hl with rfl | hl
      · refine ⟨⟨hne, hbreak⟩, hhdr.imp ?_ ?_⟩
        · intro heq
          exact heq ▸ List.mem_cons_self
        · intro heq
          exact heq ▸ List.mem_cons_self
      · exact hmem l hl
    refine ⟨line :: custom, hadd, ?_⟩
    rw [headerBlock_cons]
    by_cases hend : hdr.drop (hdr.length - 2) = crlf
    · -- the header has its CRLF
      rw [if_pos hend, List.flatten_cons, hflat]
      rcases hhdr with rfl | rfl
      · have hcr : cr ∈ hdr.drop (hdr.length - 2) := by
          rw [hend]
          decide
        exact absurd (List.mem_of_mem_drop hcr) hbreak.1
      · rfl
    · rw [if_neg hend, List.flatten_cons, List.flatten_cons, hflat]
      rcases hhdr with rfl | rfl
      · rw [List.append_assoc]
      · refine absurd ?_ hend
        have hlen : (line ++ crlf).length - 2 = line.length := by
          rw [List.length_append]
          rfl
        rw [hlen, List.drop_left]

/-! ## Sending -/

theorem copyRest_eq : ∀ (iovs : List (List Byte)) (ios : Nat), copyRest iovs ios = iovs.flatten.drop ios
  | [], ios => by rw [copyRest, List.flatten_nil, List.drop_nil]
  | iov :: iovs, ios => by
    rw [copyRest, List.flatten_cons, List.drop_append]
    split
    · rename_i hlt
      rw [copyRest_eq iovs, List.drop_eq_nil_of_le (Nat.le_of_lt hlt), List.nil_append]
    · rename_i hge
      rw [copyRest_eq iovs, show ios - iov.length = 0 by omega]

theorem take_drop_splice_add {buf bs : List Byte} {pos n : Nat} (h : pos + bs.length ≤ buf.length) :
    ((splice buf pos bs).drop pos).take (bs.length + n) = bs ++ (buf.drop (pos + bs.length)).take n := by
  rw [List.take_add, take_drop_splice h, List.drop_drop,
    take_drop_splice_of_disjoint h (.inr (Nat.le_refl _))]

theorem hdrsLeft_ok {buf buf' : IoBuf} {iovs : List (List Byte)} {ios : Nat}
    (hoff : buf.offset ≤ buf.used) (hused : buf.used ≤ buf.data.length)
    (h : hdrsLeft buf iovs iovs.flatten.length (buf.used - buf.offset) ios = .ok buf') :
    (buf'.data.drop buf'.offset).take buf'.transferSize =
      iovs.flatten.drop ios ++ (buf.data.drop buf.offset).take (buf.used - buf.offset) := by
  have hrest : (iovs.flatten.drop ios).length = iovs.flatten.length - ios := List.length_drop
  have hbody : ((buf.data.drop buf.offset).take (buf.used - buf.offset)).length =
      buf.used - buf.offset := by
    rw [List.length_take, List.length_drop]
    omega
  unfold hdrsLeft at h
  rw [copyRest_eq, ← hrest] at h
  generalize iovs.flatten.drop ios = rest at *
  generalize hdata : (buf.data.drop buf.offset).take (buf.used - buf.offset) = body at *
  simp only at h
  by_cases hfront : buf.offset < rest.length
  · -- the data moves towards the end
    rw [if_pos hfront] at h
    by_cases hroom : buf.data.length - buf.used < rest.length - buf.offset
    · rw [if_pos hroom] at h
      cases h
    rw [if_neg hroom] at h
    rw [← Except.ok.inj h]
    have hfit : rest.length + body.length ≤ buf.data.length := by omega
    have hmoved := length_splice hfit
    have hzero : 0 + rest.length ≤ (splice buf.data rest.length body).length := by omega
    have hread := take_drop_splice_add (n := body.length) hzero
    rw [Nat.zero_add, take_drop_splice hfit, hbody] at hread
    exact hread
  · -- there is room in front of the data
    rw [if_neg hfront] at h
    rw [← Except.ok.inj h]
    have hfit : buf.offset - rest.length + rest.length ≤ buf.data.length := by omega
    have hread := take_drop_splice_add (n := buf.used - buf.offset) hfit
    rw [show buf.offset - rest.length + rest.length = buf.offset by omega, hdata] at hread
    exact hread

theorem sendIov_ok {buf : IoBuf} {iovs : List (List Byte)} {accepted : Except Errno Nat}
    {start : Except Errno Unit} {s : Sent} (hoff : buf.offset ≤ buf.used)
    (hused : buf.used ≤ buf.data.length)
    (h : sendIov buf iovs (buf.used - buf.offset) accepted start = .ok s) :
    s.now ++ s.later =
      iovs.flatten ++ (buf.data.drop buf.offset).take (buf.used - buf.offset) := by
  unfold sendIov at h
  replace ⟨taken, htaken, h⟩ := Mem.bind_ok h
  have hios : min taken (iovs.flatten.length + (buf.used - buf.offset)) ≤
      iovs.flatten.length + (buf.used - buf.offset) := Nat.min_le_right _ _
  generalize min taken (iovs.flatten.length + (buf.used - buf.offset)) = ios at *
  -- All is sent at once, or a rest of the headers is left, or a rest of the data alone.
  by_cases hall : iovs.flatten.length + (buf.used - buf.offset) = ios
  · rw [if_pos hall] at h
    rw [← Except.ok.inj h]
    exact List.append_nil _
  rw [if_neg hall] at h
  by_cases hhdrs : ios < iovs.flatten.length
  · rw [if_pos hhdrs] at h
    replace ⟨buf', hleft, h⟩ := Mem.bind_ok h
    replace ⟨_, _, h⟩ := Mem.bind_ok h
    rw [← Except.ok.inj h]
    show List.take ios _ ++ _ = _
    rw [hdrsLeft_ok hoff hused hleft,
      List.take_append_of_le_length (Nat.le_of_lt hhdrs), ← List.append_assoc, List.take_append_drop]
  · rw [if_neg hhdrs] at h
    replace ⟨buf', hleft, h⟩ := Mem.bind_ok h
    replace ⟨_, _, h⟩ := Mem.bind_ok h
    rw [← Except.ok.inj h, ← Except.ok.inj hleft]
    obtain ⟨sent, rfl⟩ : ∃ sent, ios = iovs.flatten.length + sent :=
      ⟨ios - iovs.flatten.length, by omega⟩
    have hoffset : min (buf.offset + (iovs.flatten.length + sent - iovs.flatten.length))
        buf.data.length = buf.offset + sent := by omega
    show List.take (iovs.flatten.length + sent) _ ++ List.take _ (List.drop _ _) = _
    rw [hoffset, List.take_length_add_append, List.append_assoc, List.take_take,
      Nat.min_eq_left (by omega), ← List.drop_drop, ← List.take_add]
    congr 2
    show sent + (buf.used - (buf.offset + sent)) = _
    omega

theorem sendIov_full (buf : IoBuf) (iovs : List (List Byte)) (dataSize : Nat) (start : Except Errno Unit) :
    sendIov buf iovs dataSize (.ok (iovs.flatten.length + dataSize)) start =
      .ok ⟨iovs.flatten ++ (buf.data.drop buf.offset).take dataSize, []⟩ := by
  unfold sendIov
  exact if_pos (Nat.min_self _).symm

/-! ## The call -/

theorem httpSrvSnd_sends {cli : Cli} {accepted : Except Errno Nat} {start : Except Errno Unit} {s : Sent}
    (h : httpSrvSnd cli accepted start = .ok s) :
    cli.buf.offset ≤ cli.buf.used ∧ ∃ line hdrs, respLine cli = .ok line ∧ stdHdrs cli line = .ok hdrs ∧
      ((cli.genPage = false ∧ ∀ accepted start, httpSrvSnd cli accepted start =
          sendIov cli.buf ([hdrs] ++ customHdrs cli.resp.hdrs ++ [crlf])
            (cli.buf.used - cli.buf.offset) accepted start) ∨
        (cli.genPage = true ∧ ∃ buf, putPage (pageBuf cli (hdrs.length + errPageHdrs.length)) (errPage cli) = .ok buf ∧
          ∀ accepted start, httpSrvSnd cli accepted start =
            sendIov buf [hdrs, errPageHdrs, crlf] (errPage cli).length accepted start)) := by
  unfold httpSrvSnd at h ⊢
  by_cases hbuf : cli.buf.used < cli.buf.offset ∨ respHdsMax < cli.resp.hdrs.length
  · rw [if_pos hbuf] at h
    cases h
  simp only [if_neg hbuf] at h ⊢
  by_cases hroom : hdrsBufSize < 256 + cli.reason.length +
      (if cli.has respServer then cli.httpServer.length else 0)
  · rw [if_pos hroom] at h
    cases h
  simp only [if_neg hroom] at h ⊢
  replace ⟨line, hline, h⟩ := Mem.bind_ok h
  replace ⟨hdrs, hhdrs, h⟩ := Mem.bind_ok h
  refine ⟨by omega, line, hdrs, hline, hhdrs, ?_⟩
  rw [hline]
  -- The headers do not depend on what the socket takes: only the last step does.
  by_cases hpage : cli.genPage = true
  · right
    rw [if_pos hpage] at h
    replace ⟨buf, hput, h⟩ := Mem.bind_ok h
    refine ⟨hpage, buf, hput, fun accepted start => ?_⟩
    show (stdHdrs cli line >>= _) = _
    rw [hhdrs]
    show (if cli.genPage = true then putPage _ _ >>= _ else _) = _
    rw [if_pos hpage, hput]
    rfl
  · left
    refine ⟨Bool.eq_false_of_not_eq_true hpage, fun accepted start => ?_⟩
    show (stdHdrs cli line >>= _) = _
    rw [hhdrs]
    exact if_neg hpage

theorem pageBuf_offset_le {cli : Cli} (hdrsSize : Nat) (hoff : cli.buf.offset ≤ cli.buf.used) :
    (pageBuf cli hdrsSize).offset ≤ (pageBuf cli hdrsSize).used := by
  unfold pageBuf
  split
  · exact Nat.le_refl _
  · exact hoff

theorem putPage_ok {buf buf' : IoBuf} {page : List Byte} (hoff : buf.offset ≤ buf.used)
    (h : putPage buf page = .ok buf') : buf'.offset + page.length ≤ buf'.data.length := by
  unfold putPage at h
  by_cases hused : buf.data.length < buf.used
  · rw [if_pos hused] at h
    cases h
  by_cases hroom : buf.data.length - buf.used ≤ page.length
  · rw [if_neg hused, if_pos hroom] at h
    cases h
  rw [if_neg hused, if_neg hroom] at h
  rw [← Except.ok.inj h]
  show buf.offset + page.length ≤ (splice buf.data buf.used (page ++ [0])).length
  rw [length_splice (by rw [List.length_append, List.length_singleton]; omega)]
  omega

theorem getLast?_headerBlock (front : List Byte) (lines : List (List Byte)) :
    (front ++ crlf ++ headerBlock lines).getLast? = some lf := by
  have hcrlf : ∀ as : List Byte, (as ++ crlf).getLast? = some lf := by
    intro as
    rw [List.getLast?_append]
    rfl
  rcases List.eq_nil_or_concat lines with rfl | ⟨init, line, rfl⟩
  · exact (congrArg List.getLast? (List.append_nil _)).trans (hcrlf front)
  · have hline : headerBlock [line] = line ++ crlf := List.append_nil _
    rw [List.concat_eq_append, headerBlock_append, hline, ← List.append_assoc, ← List.append_assoc]
    exact hcrlf _

theorem not_wellFormed_page {cli : Cli} {hdrs data : List Byte} (hpage : cli.genPage = true)
    (hdata : data.length = (errPage cli).length) :
    ¬ WellFormed cli ([hdrs, errPageHdrs, crlf].flatten ++ data) := by
  rintro ⟨std, custom, -, -, hbytes, -⟩
  rw [Cli.content, if_pos hpage] at hbytes
  have hhead := (List.append_inj_left' hbytes hdata)
  have hcut : hdrs ++ errPageHdrs = statusLine cli ++ crlf ++ headerBlock (std ++ custom) := by
    apply (List.append_left_inj crlf).mp
    rw [← hhead]
    simp only [List.flatten_cons, List.flatten_nil, List.append_nil, List.append_assoc]
  have hlast := congrArg List.getLast? hcut
  have hend : errPageHdrs.getLast? = some (chr 'e') := by decide
  rw [getLast?_headerBlock, List.getLast?_append, hend] at hlast
  exact absurd (Option.some.inj hlast) (by decide)

theorem not_wellFormed_code {cli : Cli} {rest : List Byte} (hlines : Lines cli) :
    ¬ WellFormed cli (versionText cli ++ codeText cli ++ crlf ++ rest) := by
  rintro ⟨std, custom, -, -, hbytes, -⟩
  have hline : NoBreak (statusLine cli) := by
    rw [statusLine_eq]
    exact ((noBreak_versionText cli).append (by decide)).append (noBreak_codeText hlines)
  have hshort : NoBreak (versionText cli ++ codeText cli) :=
    (noBreak_versionText cli).append (noBreak_codeText hlines)
  rw [List.append_assoc (statusLine cli ++ crlf), List.append_assoc (statusLine cli ++ crlf)] at hbytes
  have hlen := congrArg List.length (line_unique hshort.1 hline.1 hbytes)
  rw [statusLine_eq] at hlen
  simp only [List.length_append, List.length_singleton] at hlen
  omega

theorem wellFormed_sent {cli : Cli} {line hdrs : List Byte} (hlines : Lines cli)
    (hline : respLine cli = .ok line) (hhdrs : stdHdrs cli line = .ok hdrs)
    (hcode : ¬ IsPow10 cli.resp.statusCode.toNat) (hpage : cli.genPage = false) :
    WellFormed cli (([hdrs] ++ customHdrs cli.resp.hdrs ++ [crlf]).flatten ++
      (cli.buf.data.drop cli.buf.offset).take (cli.buf.used - cli.buf.offset)) := by
  have hfirst : line = statusLine cli ++ crlf := by
    rcases respLine_ok hline with ⟨-, hfirst⟩ | ⟨hpow, -⟩
    · exact hfirst
    · exact absurd hpow hcode
  rcases adds_stdHdrs hhdrs with ⟨std, hstd, rfl⟩
  rcases customHdrs_flatten hlines.hdrs with ⟨custom, hcustom, hflat⟩
  have hcontent : cli.content = cli.body := by
    rw [Cli.content, hpage]
    rfl
  have hlength : cli.body.length = cli.buf.used - cli.buf.offset := by
    have := cli.used_le
    rw [Cli.body, List.length_take, List.length_drop]
    omega
  refine ⟨std, custom, ?_, fun l hl => (hcustom l hl).2, ?_, ?_⟩
  · intro l hl
    rcases List.mem_append.mp hl with hl | hl
    · exact ⟨(hstd l hl).ne_nil, (hstd l hl).noBreak⟩
    · exact (hcustom l hl).1
  · rw [List.flatten_append, List.flatten_append, hflat, hfirst, hcontent, headerBlock_append, Cli.body]
    simp only [List.flatten_cons, List.flatten_nil, List.append_nil, List.append_assoc]
  · rw [hcontent, hlength]
    exact fun l hl => (hstd l hl).contentLength

theorem exists_malformed {cli : Cli} (hlines : Lines cli)
    (hsend : ∃ accepted start s, httpSrvSnd cli accepted start = .ok s)
    (hbad : cli.genPage = true ∨ IsPow10 cli.resp.statusCode.toNat) :
    ∃ accepted start s, httpSrvSnd cli accepted start = .ok s ∧ ¬ WellFormed cli (s.now ++ s.later) := by
  rcases hsend with ⟨_, start, _, hok⟩
  rcases httpSrvSnd_sends hok with ⟨hoff, line, hdrs, hline, hhdrs, hsends⟩
  rcases hsends with ⟨hpage, hsends⟩ | ⟨hpage, buf, hput, hsends⟩
  · refine ⟨_, start, _, (hsends _ _).trans (sendIov_full _ _ _ start), ?_⟩
    have hpow : IsPow10 cli.resp.statusCode.toNat := by
      rcases hbad with hgen | hpow
      · rw [hpage] at hgen
        cases hgen
      · exact hpow
    rcases respLine_ok hline with ⟨hcode, -⟩ | ⟨-, rfl⟩
    · exact absurd hpow hcode
    rcases adds_stdHdrs hhdrs with ⟨std, -, rfl⟩
    rw [List.append_nil, List.flatten_append, List.flatten_append, List.flatten_singleton,
      List.append_assoc, List.append_assoc, List.append_assoc (versionText cli ++ codeText cli ++ crlf)]
    exact not_wellFormed_code hlines
  · refine ⟨_, start, _, (hsends _ _).trans (sendIov_full _ _ _ start), ?_⟩
    rw [List.append_nil]
    apply not_wellFormed_page hpage
    have hfit := putPage_ok (pageBuf_offset_le _ hoff) hput
    rw [List.length_take, List.length_drop]
    omega

/-- The bytes of an answer are a response, however the socket takes them, exactly when no error page
is generated and the status code is not a power of ten. -/
theorem wellFormed_iff (cli : Cli) (hlines : Lines cli)
    (hsend : ∃ accepted start s, httpSrvSnd cli accepted start = .ok s) :
    (∀ accepted start s, httpSrvSnd cli accepted start = .ok s → WellFormed cli (s.now ++ s.later)) ↔
      cli.genPage = false ∧ ¬ IsPow10 cli.resp.statusCode.toNat := by
  constructor
  · intro hall
    by_contra hcond
    have hbad : cli.genPage = true ∨ IsPow10 cli.resp.statusCode.toNat := by
      cases hpage : cli.genPage with
      | true => exact .inl rfl
      | false => exact .inr (not_not.mp fun hcode => hcond ⟨hpage, hcode⟩)
    rcases exists_malformed hlines hsend hbad with ⟨accepted, start, s, h, hnot⟩
    exact hnot (hall accepted start s h)
  · rintro ⟨hpage, hcode⟩ accepted start s h
    rcases httpSrvSnd_sends h with ⟨hoff, line, hdrs, hline, hhdrs, ⟨-, hsends⟩ | ⟨hgen, -⟩⟩
    · rw [hsends] at h
      rw [sendIov_ok hoff cli.used_le h]
      exact wellFormed_sent hlines hline hhdrs hcode hpage
    · rw [hpage] at hgen
      cases hgen

/-- An answer with a body of two bytes, to an HTTP/1.1 request. -/
def answer (code flags : BitVec 32) (hdrs : List (List Byte)) : Cli where
  major := 1
  minor := 1
  halfClosed := false
  buf := ⟨str "hi" ++ List.replicate 510 0, 2, 0, 0⟩
  bufIsRcv := false
  resp := ⟨code, flags, none, hdrs⟩
  httpServer := []
  rcvTimeout := 30000
  used_le := by decide +kernel
  size_lt := by decide +kernel
  httpServer_line := noBreak_nil

theorem exists_ok {x : Except Errno Sent} (h : x.isOk = true) : ∃ s, x = .ok s := by
  cases x with
  | error e => cases h
  | ok s => exact ⟨s, rfl⟩

theorem wellFormed_iff_answer :
    Lines (answer 200 respContentLen [str "X-A: b", str "X-C: d\r\n"]) ∧
      ∀ accepted start s,
        httpSrvSnd (answer 200 respContentLen [str "X-A: b", str "X-C: d\r\n"]) accepted start = .ok s →
        WellFormed (answer 200 respContentLen [str "X-A: b", str "X-C: d\r\n"]) (s.now ++ s.later) := by
  have hlines : Lines (answer 200 respContentLen [str "X-A: b", str "X-C: d\r\n"]) := by
    constructor
    · intro phrase hphrase
      cases hphrase
    · intro hdr hmem
      rcases List.mem_cons.mp hmem with rfl | hmem
      · exact ⟨str "X-A: b", by decide, .inl rfl⟩
      · rw [List.mem_singleton.mp hmem]
        exact ⟨str "X-C: d", by decide, .inr (by decide)⟩
  refine ⟨hlines, (wellFormed_iff _ hlines ?_).mpr ⟨by decide +kernel, ?_⟩⟩
  · -- the socket takes a part of the headers
    exact ⟨.ok 50, .ok (), exists_ok (by decide +kernel)⟩
  · rintro ⟨k, hk⟩
    have hcode : (200 : Nat) = 10 ^ (k + 1) := hk
    have hdvd : 10 ^ (k + 1) ∣ 200 := ⟨1, by omega⟩
    match k with
    | 0 => omega
    | 1 => omega
    | k + 2 =>
      have hpos : 1 ≤ 10 ^ k := Nat.one_le_pow _ _ (by decide)
      rw [Nat.pow_succ, Nat.pow_succ, Nat.pow_succ] at hcode
      omega

/-- An error page follows its headers at once, and the status code 100 the version. -/
theorem wellFormed_not_page :
    Lines (answer 404 respGenErrPages []) ∧ Lines (answer 100 0 []) ∧
      (∃ accepted start s, httpSrvSnd (answer 404 respGenErrPages []) accepted start = .ok s ∧
        ¬ WellFormed (answer 404 respGenErrPages []) (s.now ++ s.later)) ∧
      ∃ accepted start s, httpSrvSnd (answer 100 0 []) accepted start = .ok s ∧
        ¬ WellFormed (answer 100 0 []) (s.now ++ s.later) := by
  have hlines : ∀ code flags, Lines (answer code flags []) := by
    intro code flags
    constructor
    · intro phrase hphrase
      cases hphrase
    · exact fun _ hmem => absurd hmem List.not_mem_nil
  refine ⟨hlines 404 respGenErrPages, hlines 100 0, ?_, ?_⟩
  · apply exists_malformed (hlines 404 respGenErrPages)
    · exact ⟨.ok 5000, .ok (), exists_ok (by decide +kernel)⟩
    · exact .inl (by decide +kernel)
  · apply exists_malformed (hlines 100 0)
    · exact ⟨.ok 5000, .ok (), exists_ok (by decide +kernel)⟩
    · exact .inr ⟨1, by decide⟩

end Http
