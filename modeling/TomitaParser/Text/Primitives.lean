import Mathlib.Data.List.Basic
/-! # Primitives of a text

The text is cut into runs of characters of one kind, the primitives, and these are put together to
groups. -/

namespace TomitaParser.Text

/-- `ETypeOfPrim`: the types of primitives, and those of groups. -/
inductive TypeOfPrim
  | unknownPrim
  | newLine
  | space
  | punct
  | symbol
  | digit
  | word
  | altWord
  | initial
  | altInitial
  | abbreviature
  | abbEos
  | abbDig
  | abbAlt
  | abbEosAlt
  | abbDigAlt
  | complex
  | hyphen
  | divWord
  | hypDiv
  | digHyp
  | complexDigit
  | complexDigitHyp
  | wordShy
deriving DecidableEq, Repr

def TypeOfPrim.isDWA (typ : TypeOfPrim) : Bool :=
  typ = .digit || typ = .word || typ = .altWord

/-- `CPrimitive`. -/
structure Primitive where
  typ : TypeOfPrim := .unknownPrim
  pos : ℕ := 0
  len : ℕ := 0
deriving DecidableEq, Repr

namespace Primitive

def isDWA (p : Primitive) : Bool := p.typ.isDWA

def isNZ (p : Primitive) : Bool := p.typ = .newLine || p.typ = .space

end Primitive

/-- `CPrimGroup`, without the break after it and its text. -/
structure PrimGroup where
  gtyp : TypeOfPrim
  pos : ℕ
  len : ℕ
  prim : List Primitive
deriving DecidableEq, Repr

def PrimGroup.isDWA (group : PrimGroup) : Bool := group.gtyp.isDWA

/-- The group of one primitive. -/
def Primitive.toGroup (p : Primitive) : PrimGroup := ⟨p.typ, p.pos, p.len, [p]⟩

/-- What the dictionary of a language says. -/
structure LangData where
  /-- The classes of characters in the table, by their letters. -/
  charType : ℕ → Char
  toLower : List ℕ → List ℕ
  hasWordWithPoint : List ℕ → Bool
  replaceSimilarLetters : PrimGroup → PrimGroup

/-- `CTextBase`: the text in code units and its primitives. -/
structure TextBase where
  text : List ℕ
  primitives : List Primitive

namespace TextBase
variable (t : TextBase)

def charAt (pos : ℕ) : ℕ := t.text.getD pos 0

def prim (i : ℕ) : Primitive := t.primitives.getD i {}

/-- The first code unit of a primitive. -/
def firstChar (i : ℕ) : ℕ := t.charAt (t.prim i).pos

def maxWordLen : ℕ := 128

/-- `GetText`: without the symbol that erases HTML, and cut off. -/
def getText (p : Primitive) : List ℕ :=
  (((t.text.drop p.pos).take p.len).filter (· ≠ 0x01)).take (maxWordLen - 2)

/-- The primitives from one number up to another are added to a group. -/
def appendPrimitives (group : PrimGroup) (noBegPrim noEndPrim : ℕ) : PrimGroup :=
  let prim := group.prim ++ (t.primitives.drop noBegPrim).take (noEndPrim - noBegPrim)
  let last := prim.getLastD {}
  { group with prim, len := last.pos + last.len - group.pos }

end TextBase
end TomitaParser.Text
