import ImmixGc.Source.GlobalAllocator

/-!
# Configuration by environment variables: options.h, memory.h

A C string is the list of its characters. `strtoul` is the one of the C standard, for base 10;
it leaves `errno` alone unless the number is out of range, and nothing ever clears `errno`.
-/
namespace ImmixGc.Source

/-- What the parsers change in libc: `errno`, and the lines written to `stderr`. -/
structure Libc where
  errno : Nat
  stderr : List String
  deriving DecidableEq, Repr

def erange : Nat := 34
def ulongMax : Nat := 2 ^ 64 - 1

/-- `isspace`: space, tab, newline, vertical tab, form feed and carriage return. -/
def isSpace (c : Char) : Bool := c.toNat == 32 || (9 ≤ c.toNat && c.toNat ≤ 13)

/-- The sign and what follows it. -/
def signOf : List Char → Bool × List Char
  | '-' :: rest => (true, rest)
  | '+' :: rest => (false, rest)
  | rest => (false, rest)

def decimal (digits : List Char) : Nat := digits.foldl (fun n c => n * 10 + (c.toNat - 48)) 0

/-- `strtoul(str, &endptr, 10)`: the value and `endptr`. -/
def strtoul (str : List Char) (libc : Libc) : Nat × List Char × Libc :=
  let (negative, rest) := signOf (str.dropWhile isSpace)
  let digits := rest.takeWhile Char.isDigit
  let endptr := rest.dropWhile Char.isDigit
  if digits = [] then (0, str, libc)
  else if decimal digits > ulongMax then (ulongMax, endptr, { libc with errno := erange })
  else (if negative then sizeSub 0 (decimal digits) else decimal digits, endptr, libc)

def ignoring (name : String) (libc : Libc) : Libc :=
  { libc with stderr := libc.stderr ++ ["GC: ignoring invalid " ++ name ++ " value"] }

/-- The first two conditions of both parsers. -/
def outOfRange (value errno : Nat) : Prop :=
  errno = erange ∧ (value = ulongMax ∨ value = 0) ∨ errno ≠ 0 ∧ value = 0

instance (value errno : Nat) : Decidable (outOfRange value errno) :=
  inferInstanceAs (Decidable (_ ∨ _))

/-- `switch (*endptr)`. -/
def withSuffix (value : Nat) (endptr : List Char) : Nat :=
  match endptr.head? with
  | some 'k' | some 'K' => sizeMul value 1024
  | some 'm' | some 'M' => sizeMul (sizeMul value 1024) 1024
  | some 'g' | some 'G' => sizeMul (sizeMul (sizeMul value 1024) 1024) 1024
  | _ => value

/-- `GC_getSizeFromEnvironmentVariable`; `none` is a variable that is not set. -/
def getSizeFromEnvironmentVariable (name : String) (content : Option (List Char))
    (defaultValue : Nat) (libc : Libc) : Nat × Libc :=
  match content with
  | none => (defaultValue, libc)
  | some str =>
    let (value, endptr, libc) := strtoul str libc
    if outOfRange value libc.errno ∨ endptr = str then (defaultValue, ignoring name libc)
    else (withSuffix value endptr, libc)

/-- `GC_getIntegerFromEnvironmentVariable`. -/
def getIntegerFromEnvironmentVariable (name : String) (content : Option (List Char))
    (defaultValue : Nat) (libc : Libc) : Nat × Libc :=
  match content with
  | none => (defaultValue, libc)
  | some str =>
    let (value, _, libc) := strtoul str libc
    if outOfRange value libc.errno then (defaultValue, ignoring name libc) else (value, libc)

/-- The three variables. -/
structure Environment where
  initialHeapSize : Option (List Char)
  maximumHeapSize : Option (List Char)
  freeSpaceDivisor : Option (List Char)

namespace Environment

/-- `GC_initialHeapSize`. -/
def getInitialHeapSize (self : Environment) (libc : Libc) : Nat × Libc :=
  getSizeFromEnvironmentVariable "GC_INITIAL_HEAP_SIZE" self.initialHeapSize (4 * 1024 * 1024) libc

/-- `GC_getMemoryLimit`: the two results of `sysconf`. -/
def getMemoryLimit (physPages pageSize : Nat) : Nat := sizeMul physPages pageSize

/-- `GC_maximumHeapSize`. -/
def getMaximumHeapSize (self : Environment) (physPages pageSize : Nat) (libc : Libc) : Nat × Libc :=
  getSizeFromEnvironmentVariable "GC_MAXIMUM_HEAP_SIZE" self.maximumHeapSize
    (getMemoryLimit physPages pageSize) libc

/-- `GC_freeSpaceDivisor`. -/
def getFreeSpaceDivisor (self : Environment) (libc : Libc) : Nat × Libc :=
  getIntegerFromEnvironmentVariable "GC_FREE_SPACE_DIVISOR" self.freeSpaceDivisor 3 libc

end Environment

structure Options where
  initialSize : Nat
  memoryLimit : Nat
  freeSpaceDivisor : Nat
  deriving DecidableEq, Repr

/-- `GC_init` reads the initial size, and `GC_GlobalAllocator_init` the limit and the divisor. -/
def readOptions (environment : Environment) (physPages pageSize : Nat) (libc : Libc) :
    Options × Libc :=
  let (initialSize, libc) := environment.getInitialHeapSize libc
  let (memoryLimit, libc) := environment.getMaximumHeapSize physPages pageSize libc
  let (freeSpaceDivisor, libc) := environment.getFreeSpaceDivisor libc
  (⟨initialSize, memoryLimit, freeSpaceDivisor⟩, libc)

end ImmixGc.Source
