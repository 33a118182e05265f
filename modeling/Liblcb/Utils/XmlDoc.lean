import Liblcb.Utils.XmlSafe

/-!
# XML documents

Well-formed documents as trees, the text of a document, and what a path of names stands for in it:
the values of the elements that lie at exactly that path, in the order of the document.
-/

namespace Xml

open Mem

/-- What stands between the elements. -/
inductive Misc where
  | text (s : List Byte)
  | comment (s : List Byte)
  | cdata (s : List Byte)
  | pi (s : List Byte)
  deriving DecidableEq

/-- The content of a document or of an element.  The blanks of an element are those in its end
tag. -/
inductive Content where
  | nil
  | misc (m : Misc) (rest : Content)
  | empty (name attrs : List Byte) (rest : Content)
  | elem (name attrs : List Byte) (kids : Content) (blanks : List Byte) (rest : Content)
  deriving DecidableEq

def Misc.print : Misc → List Byte
  | text s => s
  | comment s => "<!--".toList.map chr ++ (s ++ "-->".toList.map chr)
  | cdata s => "<![CDATA[".toList.map chr ++ (s ++ "]]>".toList.map chr)
  | pi s => "<?".toList.map chr ++ (s ++ "?>".toList.map chr)

def startTag (name attrs : List Byte) : List Byte := chr '<' :: (name ++ attrs) ++ [chr '>']

def emptyTag (name attrs : List Byte) : List Byte :=
  chr '<' :: (name ++ attrs) ++ [chr '/', chr '>']

def endTag (name blanks : List Byte) : List Byte :=
  [chr '<', chr '/'] ++ (name ++ blanks) ++ [chr '>']

def Content.print : Content → List Byte
  | nil => []
  | misc m rest => m.print ++ rest.print
  | empty name attrs rest => emptyTag name attrs ++ rest.print
  | elem name attrs kids blanks rest =>
    startTag name attrs ++ (kids.print ++ (endTag name blanks ++ rest.print))

/-! ## Well-formed documents -/

def Misc.WellFormed : Misc → Prop
  | text s => chr '<' ∉ s
  | comment s => memmem ("--".toList.map chr) (s ++ [chr '-']) = none
  | cdata s => memmem ("]]>".toList.map chr) s = none
  | pi s => memmem ("?>".toList.map chr) (chr '?' :: s) = none

def IsName (name : List Byte) : Prop :=
  (∀ b ∈ name.head?, b ∉ markup) ∧ name ≠ [] ∧
    ∀ b ∈ name, isSpace b = false ∧ b ∉ [chr '<', chr '>', chr '/']

/-- Attributes as they stand behind a name, with the blanks in front of them. -/
def IsAttrs (attrs : List Byte) : Prop :=
  (∀ b ∈ attrs.head?, isSpace b = true) ∧ chr '/' ∉ attrs.getLast? ∧
    ∀ b ∈ attrs, b ∉ [chr '<', chr '>']

def IsBlanks (blanks : List Byte) : Prop := ∀ b ∈ blanks, isSpace b = true

def Content.WellFormed : Content → Prop
  | nil => True
  | misc m rest => m.WellFormed ∧ rest.WellFormed
  | empty name attrs rest => IsName name ∧ IsAttrs attrs ∧ rest.WellFormed
  | elem name attrs kids blanks rest =>
    IsName name ∧ IsAttrs attrs ∧ kids.WellFormed ∧ IsBlanks blanks ∧ rest.WellFormed

instance (m : Misc) : Decidable m.WellFormed :=
  match m with
  | .text s => inferInstanceAs (Decidable (chr '<' ∉ s))
  | .comment s => inferInstanceAs (Decidable (memmem ("--".toList.map chr) (s ++ [chr '-']) = none))
  | .cdata s => inferInstanceAs (Decidable (memmem ("]]>".toList.map chr) s = none))
  | .pi s => inferInstanceAs (Decidable (memmem ("?>".toList.map chr) (chr '?' :: s) = none))

instance (name : List Byte) : Decidable (IsName name) := inferInstanceAs (Decidable (_ ∧ _ ∧ _))

instance (attrs : List Byte) : Decidable (IsAttrs attrs) := inferInstanceAs (Decidable (_ ∧ _ ∧ _))

instance (blanks : List Byte) : Decidable (IsBlanks blanks) :=
  inferInstanceAs (Decidable (∀ b ∈ blanks, isSpace b = true))

instance Content.decidableWellFormed : (f : Content) → Decidable f.WellFormed
  | nil => inferInstanceAs (Decidable True)
  | misc m rest =>
    have := rest.decidableWellFormed
    inferInstanceAs (Decidable (m.WellFormed ∧ rest.WellFormed))
  | empty name attrs rest =>
    have := rest.decidableWellFormed
    inferInstanceAs (Decidable (IsName name ∧ IsAttrs attrs ∧ rest.WellFormed))
  | elem name attrs kids blanks rest =>
    have := kids.decidableWellFormed
    have := rest.decidableWellFormed
    inferInstanceAs (Decidable (IsName name ∧ IsAttrs attrs ∧ kids.WellFormed ∧ IsBlanks blanks ∧
      rest.WellFormed))

/-! ## Paths -/

/-- The value of an element whose content begins at `off`: what is in a `CDATA` section where that
is the first markup, else all of the content. -/
def Content.cdata (off : Nat) : Content → Option (Nat × Nat)
  | misc (.text s) rest => rest.cdata (off + s.length)
  | misc (.cdata s) _ => some (off + 9, s.length)
  | _ => none

def Content.value (off : Nat) (kids : Content) : Nat × Nat :=
  (kids.cdata off).getD (off, kids.print.length)

/-- The values of the elements that lie at exactly the path, in a content that begins at `off`.  An
empty element has none. -/
def Content.valuesAt : List (List Byte) → Nat → Content → List (Option (Nat × Nat))
  | _, _, nil => []
  | path, off, misc m rest => rest.valuesAt path (off + m.print.length)
  | path, off, empty name attrs rest =>
    (if path = [name] then [none] else []) ++
      rest.valuesAt path (off + (emptyTag name attrs).length)
  | path, off, elem name attrs kids blanks rest =>
    let inner := off + (startTag name attrs).length
    (if path = [name] then [some (kids.value inner)]
      else if path.head? = some name then kids.valuesAt path.tail inner else []) ++
      rest.valuesAt path (inner + kids.print.length + (endTag name blanks).length)

/-! ## What the scanner is led astray by -/

/-- No empty element of this name, at any depth. -/
def Content.NoEmpty (t : List Byte) : Content → Prop
  | nil => True
  | misc _ rest => rest.NoEmpty t
  | empty name _ rest => name ≠ t ∧ rest.NoEmpty t
  | elem _ _ kids _ rest => kids.NoEmpty t ∧ rest.NoEmpty t

def Content.NoElement : Content → Prop
  | misc _ rest => rest.NoElement
  | nil => True
  | _ => False

/-- Up to the first element at the path there is no empty element whose name is the next one of the
path but for the last of the path at its place, the end tags of the elements of the path have no
blanks, and there is no element inside the one that is looked for. -/
def Content.Clean : List (List Byte) → Content → Prop
  | [], _ => False
  | _ :: _, nil => True
  | t :: ts, misc _ rest => rest.Clean (t :: ts)
  | t :: ts, empty name _ rest => if name = t then ts = [] else rest.Clean (t :: ts)
  | t :: ts, elem name _ kids blanks rest =>
    if name = t then
      if ts = [] then kids.NoElement ∧ blanks = []
      else kids.Clean ts ∧ (kids.valuesAt ts 0 = [] → blanks = [] ∧ rest.Clean (t :: ts))
    else kids.NoEmpty t ∧ rest.Clean (t :: ts)

theorem Content.valuesAt_eq_nil {off off' : Nat} (f : Content) (path : List (List Byte))
    (h : f.valuesAt path off = []) : f.valuesAt path off' = [] := by
  induction f generalizing path off off' with
  | nil => rfl
  | misc m rest ih => exact ih path h
  | empty name attrs rest ih =>
    rw [valuesAt, List.append_eq_nil_iff] at h ⊢
    exact ⟨h.1, ih path h.2⟩
  | elem name attrs kids blanks rest ihkids ihrest =>
    rw [valuesAt, List.append_eq_nil_iff] at h ⊢
    refine ⟨?_, ihrest path h.2⟩
    have hkids := h.1
    split at hkids
    · cases hkids
    · rename_i hpath
      rw [if_neg hpath]
      split at hkids
      · rename_i hhead
        rw [if_pos hhead]
        exact ihkids path.tail hkids
      · rename_i hhead
        exact if_neg hhead

end Xml
