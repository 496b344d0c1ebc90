import IgaArchive.Text.Rune

/-!
Text laid out in columns. Tabs end cells and line breaks end lines. Consecutive lines that have a
cell ended by a tab in the same place form a column there, as wide as its widest cell and the gap
behind it. What follows the last tab of a line belongs to no column.
-/

namespace IgaArchive.Columns

def gap : Nat := 2

/-- Between two of these bytes text is literal: tabs and line breaks end nothing. -/
def literalMark : UInt8 := 0xFF

def endsCell (b : UInt8) : Bool :=
  b == Bytes.code '\t' || b == 0x0B

def formFeed : UInt8 := 0x0C

def endsLine (b : UInt8) : Bool :=
  b == Bytes.newline || b == formFeed

/-- The width of a cell in characters; the marks around literal text take no room. -/
def width (cell : Bytes) : Nat :=
  (Rune.decode cell).countP (· ≠ .stray literalMark)

/-- The cells of a line. The last one stands behind the last tab. -/
abbrev Line := List Bytes

def hasColumn (line : Line) : Bool :=
  2 ≤ line.length

def padded (columnWidth : Nat) (cell : Bytes) : Bytes :=
  cell ++ List.replicate (columnWidth - width cell) (Bytes.code ' ')

def columnWidth (lines : List Line) : Nat :=
  lines.foldl (fun widest line => max widest (width (line.headD []))) 0 + gap

def layOutWithin : (columns : Nat) → List Line → List Bytes
  | 0, lines => lines.map List.flatten
  | columns + 1, lines =>
    (lines.splitBy fun before line => hasColumn before == hasColumn line).flatMap fun block =>
      if block.any hasColumn then
        List.zipWith (fun line rest => padded (columnWidth block) (line.headD []) ++ rest) block
          (layOutWithin columns (block.map List.tail))
      else block.map List.flatten

def layOut (lines : List Line) : Bytes :=
  [Bytes.newline].intercalate (layOutWithin (lines.foldl (fun most line => max most line.length) 0) lines)

/-- Text being cut into cells, lines, and sections of lines that are laid out together. All lists are
in reverse order. -/
structure Cutting where
  literal : Bool := false
  cell : Bytes := []
  line : Line := []
  lines : List Line := []
  sections : List (List Line) := []

namespace Cutting

def endCell (cutting : Cutting) : Cutting :=
  { cutting with cell := [], line := cutting.cell.reverse :: cutting.line }

def endLine (cutting : Cutting) : Cutting :=
  { cutting with line := [], lines := cutting.line.reverse :: cutting.lines }

def endSection (cutting : Cutting) : Cutting :=
  let lines := (cutting.line.reverse :: cutting.lines).reverse
  { cutting with line := [], lines := [], sections := lines :: cutting.sections }

/-- Takes in a byte. A form feed ends the section, and so does a line without a column. -/
def push (cutting : Cutting) (b : UInt8) : Cutting :=
  let taken := { cutting with cell := b :: cutting.cell }
  if cutting.literal then { taken with literal := b ≠ literalMark }
  else if b = literalMark then { taken with literal := true }
  else if endsCell b then cutting.endCell
  else if endsLine b then
    let ended := cutting.endCell
    if b = formFeed ∨ ended.line.length = 1 then ended.endLine.endSection else ended.endLine
  else taken

def finish (cutting : Cutting) : List (List Line) :=
  let ended := if cutting.cell = [] then cutting else cutting.endCell
  ended.endSection.sections.reverse

end Cutting

/-- The sections of a text. Each ends in a line that no line break follows. -/
def sections (text : Bytes) : List (List Line) :=
  (text.foldl Cutting.push {}).finish

def render (text : Bytes) : Bytes :=
  (sections text).flatMap layOut

end IgaArchive.Columns
