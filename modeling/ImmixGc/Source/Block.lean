import ImmixGc.Source.Machine

/-!
# Objects, lines and blocks: object.h, line_header.h, block.h

The lines of a block are word aligned memory: `memory.load a` is the 8-byte word at `a`. An
`Object` header is two of these words, its size and a word whose two low bytes are
`marked` and `atomic`; a `Hole` record is two of them, `limit` and `next`. Block headers
(the reserved first line of each block) are records.
-/
namespace ImmixGc.Source

structure Memory where
  load : Nat → Nat

/-- Write one word. -/
def Memory.store (memory : Memory) (address : Nat) (value : Nat) : Memory :=
  ⟨Source.store memory.load address value⟩

def sizeofObject : Nat := 16

namespace Object

def size (memory : Memory) (object : Nat) : Nat := memory.load object

def marked (memory : Memory) (object : Nat) : Nat := memory.load (object + 8) % 256

def atomic (memory : Memory) (object : Nat) : Nat := memory.load (object + 8) / 256 % 256

/-- `object->marked = value`, one byte of the header's second word. -/
def setMarked (memory : Memory) (object : Nat) (value : Nat) : Memory :=
  memory.store (object + 8) (memory.load (object + 8) / 256 * 256 + value)

def isMarked (memory : Memory) (object : Nat) : Bool := marked memory object == 1

def mark (memory : Memory) (object : Nat) : Memory := setMarked memory object 1

def unmark (memory : Memory) (object : Nat) : Memory := setMarked memory object 0

/-- `Object_allocate`: the size and the atomic byte; the mark byte keeps what was there. -/
def allocate (memory : Memory) (object : Nat) (size atomic : Nat) : Memory :=
  let memory := memory.store object size
  memory.store (object + 8)
    (memory.load (object + 8) / 65536 * 65536 + atomic % 256 * 256 + memory.load (object + 8) % 256)

def mutatorAddress (object : Nat) : Nat := object + sizeofObject

def contains (memory : Memory) (object pointer : Nat) : Bool :=
  mutatorAddress object ≤ pointer && pointer < object + size memory object

theorem contains_iff {memory : Memory} {object pointer : Nat} :
    contains memory object pointer = true ↔
      object + sizeofObject ≤ pointer ∧ pointer < object + size memory object := by
  rw [contains, Bool.and_eq_true, decide_eq_true_iff, decide_eq_true_iff]
  rfl

end Object

/-- One byte per line: bit 0 marked, bit 1 contains an object, the rest the offset of the
first object, which is word aligned and below 256. -/
abbrev LineHeader := BitVec 8

namespace LineHeader

def clear : LineHeader := 0

def isMarked (header : LineHeader) : Bool := header &&& 1 == 1

def mark (header : LineHeader) : LineHeader := header ||| 1

def unmark (header : LineHeader) : LineHeader := header &&& ~~~1

def containsObject (header : LineHeader) : Bool := header &&& 2 == 2

def setOffset (offset : Nat) : LineHeader := (BitVec.ofNat 8 offset &&& 0xFC) ||| 2

def getOffset (header : LineHeader) : Nat := (header &&& 0xFC).toNat

@[simp] theorem isMarked_clear : isMarked clear = false := by decide
@[simp] theorem containsObject_clear : containsObject clear = false := by decide
@[simp] theorem isMarked_mark (h : LineHeader) : (mark h).isMarked = true := by
  revert h; decide
@[simp] theorem containsObject_mark (h : LineHeader) :
    (mark h).containsObject = h.containsObject := by revert h; decide
@[simp] theorem getOffset_mark (h : LineHeader) : (mark h).getOffset = h.getOffset := by
  revert h; decide
@[simp] theorem isMarked_unmark (h : LineHeader) : (unmark h).isMarked = false := by
  revert h; decide
@[simp] theorem containsObject_unmark (h : LineHeader) :
    (unmark h).containsObject = h.containsObject := by revert h; decide
@[simp] theorem getOffset_unmark (h : LineHeader) : (unmark h).getOffset = h.getOffset := by
  revert h; decide

theorem getOffset_lt (h : LineHeader) : h.getOffset < 256 := by
  unfold getOffset
  exact (h &&& 0xFC).isLt

theorem setOffset_spec (offset : Nat) (aligned : offset % 8 = 0) (bound : offset < 256) :
    (setOffset offset).getOffset = offset ∧ (setOffset offset).containsObject = true ∧
      (setOffset offset).isMarked = false := by
  have all : ∀ k < 32, (setOffset (8 * k)).getOffset = 8 * k ∧
      (setOffset (8 * k)).containsObject = true ∧
      (setOffset (8 * k)).isMarked = false := by decide
  have word : offset = 8 * (offset / 8) := by omega
  rw [word]
  exact all (offset / 8) (by omega)

end LineHeader

inductive BlockFlag where
  | free | recyclable | unavailable
  deriving DecidableEq, Repr

structure Block where
  marked : Nat
  flag : BlockFlag
  firstFreeLineIndex : Int
  next : Nat
  lineHeaders : Nat → LineHeader

def invalidLineIndex : Int := -1

namespace Block

/-- `Block_init`: the whole header is zeroed. -/
def init : Block := ⟨0, .free, 0, null, fun _ => LineHeader.clear⟩

/-- `Block_from`: clear the low bits of the pointer. -/
def «from» (pointer : Nat) : Nat := pointer / blockSize * blockSize

def isFree (self : Block) : Bool := self.flag == .free

def isRecyclable (self : Block) : Bool := self.flag == .recyclable

def isMarked (self : Block) : Bool := self.marked == 1

def setRecyclable (self : Block) (firstFreeLineIndex : Int) : Block :=
  { self with flag := .recyclable, firstFreeLineIndex := firstFreeLineIndex }

def setUnavailable (self : Block) : Block := { self with flag := .unavailable }

def start (block : Nat) : Nat := block + lineSize

def stop (block : Nat) : Nat := block + blockSize

def contains (block pointer : Nat) : Bool := start block ≤ pointer && pointer < stop block

/-- `Block_line`. -/
def line (block : Nat) (lineIndex : Nat) : Nat := start block + lineIndex * lineSize

/-- `Block_firstFreeLine`, with its two assertions. -/
def firstFreeLine (self : Block) (block : Nat) : Result Nat := do
  check (0 ≤ self.firstFreeLineIndex) "self->first_free_line_index >= 0"
  check (self.firstFreeLineIndex < lineCount) "self->first_free_line_index < LINE_COUNT"
  .ok (start block + lineSize * self.firstFreeLineIndex.toNat)

/-- `Block_lineIndex`: `none` is `INVALID_LINE_INDEX`. -/
def lineIndex (block pointer : Nat) : Option Nat :=
  if pointer < start block then none else some ((pointer - start block) / lineSize)

/-- Set one line header of a block header. -/
def setLineHeader (self : Block) (index : Nat) (header : LineHeader) : Block :=
  { self with lineHeaders := store self.lineHeaders index header }

end Block

/-- `Line_update`: record the first object of a line. -/
def lineUpdate (self : Block) (block object : Nat) : Result Block := do
  check (Block.contains block object) "Block_contains(block, (char *)object)"
  match Block.lineIndex block object with
  | none => .error (.assertion "line_index != INVALID_LINE_INDEX")
  | some index =>
    check (index < lineCount) "line_index < LINE_COUNT"
    if (self.lineHeaders index).containsObject then .ok self
    else do
      let offset := object - Block.line block index
      check (offset % wordSize == 0) "offset % WORD_SIZE == 0"
      check (offset < lineSize) "offset < LINE_SIZE"
      .ok (self.setLineHeader index (LineHeader.setOffset offset))

end ImmixGc.Source
