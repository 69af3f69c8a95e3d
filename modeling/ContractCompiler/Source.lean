import ContractCompiler.Bytes

/-!
# Source texts and positions

Spans are byte ranges in the UTF-8 form of a source text. Positions shown to a reader are lines and
columns, both counted from one; a column counts characters, that is bytes that start a character.
Offsets, lines and columns are numbers of 32 bits, and arithmetic on them wraps around.

The offsets at which the lines of a text start are collected first; the line of an offset is then
found by halving. What is looked up out of range, and a part of a text that ends before it starts or
behind the text, is `none`.

- `Span.join`: the least span that covers two spans of one file;
- `lineStarts?`, `lineIndex?`: where lines start, and the line of an offset;
- `slice?`: a part of a text, if it lies in the text;
- `SourceFile.lineCol?`: line and column of a byte offset;
- `SourceFile.snippet?`: the line a span starts in, with the columns to underline.
-/

namespace ContractCompiler

/-- A byte range of a source file: `lo` is in it and `hi` is the first byte after it. -/
structure Span where
  lo : UInt32 := 0
  hi : UInt32 := 0
  file : UInt32 := 0
deriving DecidableEq, Repr, Inhabited

namespace Span

/-- A span without any byte. -/
def isEmpty (s : Span) : Bool := s.lo == s.hi

/-- The least span that covers both. A span of another file and an empty span add nothing. -/
def join (a b : Span) : Span :=
  if a.file ≠ b.file then a
  else if a.isEmpty then b
  else if b.isEmpty then a
  else { a with lo := min a.lo b.lo, hi := max a.hi b.hi }

end Span

/-- A line and a column, both from one; zero where there is no text. -/
structure LineCol where
  line : UInt32 := 0
  col : UInt32 := 0
deriving DecidableEq, Repr, Inhabited

/-- One line of source text with the part of it to underline. -/
structure Snippet where
  /-- The bytes of the whole line, without its line break. -/
  bytes : Bytes := []
  /-- The number of the line from one; zero where there is no text. -/
  line : UInt32 := 0
  /-- How many characters stand before the underlined part. -/
  before : UInt32 := 0
  /-- How many characters are underlined. -/
  length : UInt32 := 1
deriving DecidableEq, Repr, Inhabited

/-- The text of the line. -/
def Snippet.text (s : Snippet) : String := (Bytes.text? s.bytes).getD ""

/-! ## Lines -/

/-- The byte that ends a line. -/
def lineBreak : UInt8 := 10

/-- The number of characters that start in a byte string: bytes of the form `10xxxxxx` continue
one. -/
def characterCount (bs : Bytes) : Nat := bs.countP fun b => b &&& 0xC0 != 0x80

/-- The number of characters as a column. -/
def columns (bs : Bytes) : UInt32 := .ofNat (characterCount bs)

/-- The bytes from an offset up to another one, if there are such bytes. -/
def slice? (bs : Bytes) (lo hi : UInt32) : Option Bytes :=
  if lo ≤ hi ∧ hi.toNat ≤ bs.length then
    some ((bs.drop lo.toNat).take (hi.toNat - lo.toNat))
  else none

/-- The offsets after the line breaks of bytes that start at an offset. -/
def startsFrom (offset : UInt32) : Bytes → List UInt32
  | [] => []
  | b :: bs => if b = lineBreak then (offset + 1) :: startsFrom (offset + 1) bs
      else startsFrom (offset + 1) bs

/-- The offsets at which lines start. The last line may be empty. The offset that goes through a
text of `2 ^ 32` bytes or more starts over at its end: of such a text there is no answer. -/
def lineStarts? (bs : Bytes) : Option (Array UInt32) :=
  if bs.length < UInt32.size then some (0 :: startsFrom 0 bs).toArray else none

/-- The place of the first number greater than another one, among so many ordered numbers from a
place on. The middle one tells which half to look at next. -/
def upperBound? (xs : Array UInt32) (x : UInt32) (first len : Nat) : Option Nat :=
  if len = 0 then some first
  else do
    let y ← xs[first + len / 2]?
    if x < y then upperBound? xs x first (len / 2)
    else upperBound? xs x (first + len / 2 + 1) (len - len / 2 - 1)
termination_by len

/-- The number of the line of an offset, counted from zero. -/
def lineIndex? (starts : Array UInt32) (offset : UInt32) : Option UInt32 :=
  (upperBound? starts offset 0 starts.size).map fun place => .ofNat (place - 1)

/-- The offset at which a line of a text of a size ends: before the start of the next line, or at
the end. -/
def lineEnd? (starts : Array UInt32) (size index : UInt32) : Option UInt32 :=
  match starts[(index + 1).toNat]? with
  | none => some size
  | some next => if next = 0 then none else some (next - 1)

/-! ## Files -/

/-- A source file. -/
structure SourceFile where
  name : String
  bytes : Bytes
deriving DecidableEq, Repr

namespace SourceFile

/-- The size of a text in 32 bits. -/
def size (f : SourceFile) : UInt32 := .ofNat f.bytes.length

/-- Line and column of a byte offset; offsets past the end stand for the end. -/
def lineCol? (f : SourceFile) (offset : UInt32) : Option LineCol := do
  let starts ← lineStarts? f.bytes
  let offset := min offset f.size
  let index ← lineIndex? starts offset
  let start ← starts[index.toNat]?
  let before ← slice? f.bytes start offset
  return { line := index + 1, col := columns before + 1 }

/-- The line that a span starts in. What the span covers beyond that line is not underlined, and at
least one column always is. -/
def snippet? (f : SourceFile) (lo hi : UInt32) : Option Snippet := do
  let starts ← lineStarts? f.bytes
  let lo := min lo f.size
  let hi := min (max hi lo) f.size
  let index ← lineIndex? starts lo
  let start ← starts[index.toNat]?
  let stop ← lineEnd? starts f.size index
  let line ← slice? f.bytes start stop
  let before ← slice? f.bytes start lo
  let covered ← slice? f.bytes lo (min hi stop)
  let length := columns covered
  return {
    bytes := line
    line := index + 1
    before := columns before
    length := if length = 0 then 1 else length }

/-- Line and column of a byte offset of a file, if there is any text in it. -/
def lineCol (f : SourceFile) (offset : UInt32) : LineCol :=
  if f.bytes.isEmpty then {} else (f.lineCol? offset).getD {}

/-- The line that a span of a file starts in, if there is any text in it. -/
def snippet (f : SourceFile) (lo hi : UInt32) : Snippet :=
  if f.bytes.isEmpty then {} else (f.snippet? lo hi).getD {}

end SourceFile

/-- The source files of a compilation, numbered in the order they were added. -/
structure Sources where
  files : Array SourceFile := #[]
deriving Repr, Inhabited

namespace Sources

/-- The file of a number. -/
def file? (s : Sources) (file : UInt32) : Option SourceFile := s.files[file.toNat]?

/-- Adds a file; its number is the number of files before it. Texts are taken to have less than
`2 ^ 32` bytes: where the lines of a longer one start is looked for without end. -/
def add (s : Sources) (name text : String) : UInt32 × Sources :=
  (.ofNat s.files.size, { files := s.files.push { name, bytes := Bytes.utf8 text } })

/-- Whether a file of that number exists. -/
def has (s : Sources) (file : UInt32) : Bool := (s.file? file).isSome

/-- The name of a file. -/
def name (s : Sources) (file : UInt32) : String := ((s.file? file).map (·.name)).getD "<unknown>"

/-- The text of a file; empty if there is no such file. -/
def content (s : Sources) (file : UInt32) : String :=
  ((s.file? file).bind fun f => Bytes.text? f.bytes).getD ""

/-- Line and column of a byte offset. -/
def lineCol (s : Sources) (file offset : UInt32) : LineCol :=
  ((s.file? file).map (·.lineCol offset)).getD {}

/-- The line that a span starts in. -/
def snippet (s : Sources) (span : Span) : Snippet :=
  ((s.file? span.file).map (·.snippet span.lo span.hi)).getD {}

end Sources

end ContractCompiler
