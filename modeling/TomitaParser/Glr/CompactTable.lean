import Mathlib.Data.Nat.Bitwise
import TomitaParser.Lib.Codec
import TomitaParser.Glr.SparseMatrix
import TomitaParser.Glr.Table
import TomitaParser.Gzt.SavedStorage
/-! # Compact table

The table of the parser as it is kept and saved: a bit for each cell, a sparse matrix of tagged
words for the cells that are not empty, and a store of the sets of rules. -/

namespace TomitaParser
open Gzt

/-- `CheckIndexOverflow`: one bit of a word is reserved. -/
def maxIndex : ℕ := (2 ^ 32 - 1) >>> 1

def checkIndexOverflow (index : ℕ) : Option Unit := if maxIndex < index then none else some ()

/-- `IsEmpty`. -/
def SlrCell.isEmpty (cell : SlrCell) : Bool :=
  cell.gotoLine.isNone && !cell.shift && cell.reduceRules.isEmpty

/-- `TCompactSLRCell`. -/
structure CompactCell where
  shiftGoto : ℕ
  rulesIndex : ℕ
deriving DecidableEq, Repr

namespace CompactCell

/-- `Empty`. -/
def noGoto : ℕ := 2 ^ 32 - 2

/-- The goto line in the higher bits of a word. -/
def gotoWord : Option ℕ → ℕ
  | some line => ui32 (line <<< 1)
  | none => noGoto

def make (shift : Bool) (gotoLine : Option ℕ) (rulesIndex : ℕ) : CompactCell :=
  ⟨if shift then gotoWord gotoLine ||| 1 else gotoWord gotoLine, rulesIndex⟩

def hasGotoLine (cell : CompactCell) : Bool := cell.shiftGoto &&& noGoto != noGoto

def getGotoLine (cell : CompactCell) : ℕ := cell.shiftGoto >>> 1

end CompactCell

/-- `CGLRTable`. -/
structure CompactTable (Agr : Type) where
  ruleInfos : List (RuleInfo Agr)
  rows : ℕ := 0
  columns : ℕ := 0
  mask : List ℕ := []
  simpleCells : SparseMatrix ℕ := {}
  complexCells : List CompactCell := []
  ruleIndexStorage : CompactStorage := {}

namespace CompactTable
variable {Agr : Type}

/-- `IsEmptyCell`. -/
def isEmptyCell (t : CompactTable Agr) (row column : ℕ) : Bool :=
  let idx := row * t.columns + column
  t.mask.getD (idx >>> 3) 0 &&& (1 <<< (idx &&& 7)) == 0

/-- `GetEncodedCell`. -/
def getEncodedCell (t : CompactTable Agr) (row column : ℕ) : Option ℕ :=
    t.simpleCells.get row column

def isSimpleCell (encoded : ℕ) : Bool := encoded &&& 1 == 0

def decodeIndex (encoded : ℕ) : ℕ := encoded >>> 1

/-- `GetGotoLine`. -/
def getGotoLine (t : CompactTable Agr) (encoded : ℕ) : Option ℕ :=
  if isSimpleCell encoded then none
  else (t.complexCells[decodeIndex encoded]?).bind fun complex =>
    if complex.hasGotoLine then some complex.getGotoLine else none

/-- `GetSimpleCellRule`, as a place in `ruleInfos`. -/
def getSimpleCellRule (encoded : ℕ) : ℕ := decodeIndex encoded

/-- `IterComplexCellRules`. -/
def iterComplexCellRules (t : CompactTable Agr) (encoded : ℕ) : List ℕ :=
  match t.complexCells[decodeIndex encoded]? with
  | some complex => t.ruleIndexStorage.get complex.rulesIndex
  | none => []

/-- The rules of a cell, from `isSimpleCell` on. -/
def cellRules (t : CompactTable Agr) (encoded : ℕ) : List ℕ :=
  if isSimpleCell encoded then [getSimpleCellRule encoded] else t.iterComplexCellRules encoded

/-- `GetRuleIndex`. -/
def getRuleIndex (rule : ℕ) : Option ℕ := do
  checkIndexOverflow rule
  return ui32 rule

/-- What `Compact` builds. -/
structure Compaction where
  mask : List ℕ
  simpleCells : SparseMatrix ℕ := {}
  complexCells : List CompactCell := []
  ruleIndexStorage : CompactStorageBuilder ℕ

/-- The bit of a cell is set. -/
def setBit (mask : List ℕ) (index : ℕ) : List ℕ :=
  mask.modify (index >>> 3) fun byte => byte ||| (1 <<< (index &&& 7))

/-- The body of the loops of `Compact`. -/
def compactCell (hash : List ℕ → ℕ) (columns : ℕ) (s : Compaction)
    (place : (ℕ × ℕ) × SlrCell) : Option Compaction :=
  let ((row, column), cell) := place
  if cell.isEmpty then some s
  else
    let s := { s with mask := setBit s.mask (row * columns + column) }
    match cell.reduceRules, !cell.shift && cell.gotoLine.isNone with
    | [rule], true => do
      -- the lowest bit 0: the rest is the index of the rule
      let index ← getRuleIndex rule
      return { s with simpleCells :=
        s.simpleCells.add (ui32 row) (ui32 column) (ui32 (index <<< 1)) }
    | rules, _ => do
      let indices ← rules.mapM getRuleIndex
      let (builder, rulesIndex) := s.ruleIndexStorage.addRange hash true indices
      return { s with
        ruleIndexStorage := builder
        simpleCells := s.simpleCells.add (ui32 row) (ui32 column)
          (ui32 ((s.complexCells.length <<< 1) + 1))
        complexCells := s.complexCells ++
          [CompactCell.make cell.shift cell.gotoLine (ui32 rulesIndex)] }

/-- The cells of a raw table with their places, line by line. -/
def places (lines : List (List (SlrCell))) : List ((ℕ × ℕ) × SlrCell) :=
  lines.zipIdx.flatMap fun line => line.1.zipIdx.map fun cell => ((line.2, cell.2), cell.1)

/-- `Compact`. -/
def compact (hash : List ℕ → ℕ) (T : GlrTable Agr) : Option (CompactTable Agr) :=
  match T.rows with
  | [] => some { ruleInfos := T.ruleInfos }
  | line :: _ => do
    let columns := line.length
    let start : Compaction := {
      mask := List.replicate ((T.rows.length * columns - 1) / 8 + 1) 0
      ruleIndexStorage := CompactStorageBuilder.create hash true }
    let s ← (places T.rows).foldlM (compactCell hash columns) start
    -- the storage is loaded from what the builder saves
    let saved ← s.ruleIndexStorage.toStorage
    let bytes ← CompactStorage.codec.save saved
    let (storage, _) ← CompactStorage.codec.load bytes
    checkIndexOverflow s.complexCells.length
    return { ruleInfos := T.ruleInfos, rows := T.rows.length, columns := columns, mask := s.mask,
             simpleCells := s.simpleCells, complexCells := s.complexCells,
             ruleIndexStorage := storage }

end CompactTable

/-- `IntHash` of a word. -/
def intHash (key : UInt32) : UInt32 :=
  let key := key + ~~~(key <<< 15)
  let key := key ^^^ (key >>> 10)
  let key := key + (key <<< 3)
  let key := key ^^^ (key >>> 6)
  let key := key + ~~~(key <<< 11)
  key ^^^ (key >>> 16)

/-- `SaveProtectedSize` and `LoadProtectedSize`. -/
def protectedSize : Codec ℕ :=
  (Codec.hashed (fun n => (intHash (UInt32.ofNat n)).toNat) fun _ => UInt32.toNat_lt _).guarded
    fun size => decide (size ≤ 2 ^ 32 - 1)

/-- `SaveProtected` and `LoadProtected`: the size once more, which is not compared. -/
def protectedList {α : Type} (a : Codec α) : Codec (List α) :=
  (protectedSize.pair a.list).via (fun xs => (xs.length, xs)) Prod.snd fun _ => rfl

def RuleInfo.codec {Agr : Type} (agreement : Codec Agr) : Codec (RuleInfo Agr) :=
  (Codec.word.pair (Codec.word.pair (Codec.word.pair (Codec.word.pair agreement.list)))).via
    (fun r => (r.originalRuleNo, r.ruleLength, r.leftPart, r.synMainItemNo, r.ruleAgreement))
    (fun r => ⟨r.1, r.2.1, r.2.2.1, r.2.2.2.1, r.2.2.2.2⟩) fun _ => rfl

def CompactCell.codec : Codec CompactCell :=
  (Codec.word.pair Codec.word).via (fun c => (c.shiftGoto, c.rulesIndex)) (fun r => ⟨r.1, r.2⟩)
    fun _ => rfl

def SparseMatrix.codec : Codec (SparseMatrix ℕ) :=
  ((protectedList Codec.word).pair ((protectedList Codec.word).pair
    (protectedList Codec.word))).via (fun m => (m.values, m.rowIndex, m.columnIndex))
    (fun r => ⟨r.1, r.2.1, r.2.2⟩) fun _ => rfl

/-- `CGLRTable::Save` and `CGLRTable::Load`. -/
def CompactTable.codec {Agr : Type} (agreement : Codec Agr) : Codec (CompactTable Agr) :=
  (protectedSize.pair (protectedSize.pair ((protectedList (RuleInfo.codec agreement)).pair
    ((protectedList Codec.byte).pair (SparseMatrix.codec.pair
      ((protectedList CompactCell.codec).pair CompactStorage.codec)))))).via
    (fun t => (t.rows, t.columns, t.ruleInfos, t.mask, t.simpleCells, t.complexCells,
      t.ruleIndexStorage))
    (fun r => ⟨r.2.2.1, r.1, r.2.1, r.2.2.2.1, r.2.2.2.2.1, r.2.2.2.2.2.1, r.2.2.2.2.2.2⟩)
    fun _ => rfl

end TomitaParser
