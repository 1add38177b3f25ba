import ImmixGc.Guarantees.LargeSpace
import ImmixGc.Source.Options
import Mathlib.Data.Int.ModEq

/-!
# Which configurations are safe

Three environment variables are parsed without a check of the product with the suffix, of a
zero divisor, or of the initial size against the limit. A configuration that passes the
assertions of `GC_GlobalAllocator_init` is safe exactly when its texts avoid these three.
-/
namespace ImmixGc.Guarantees
open Source Foundation

/-! ## What a text says -/

def digitsOf (str : List Char) : List Char :=
  (signOf (str.dropWhile isSpace)).2.takeWhile Char.isDigit

/-- The characters behind the digits. -/
def restOf (str : List Char) : List Char :=
  (signOf (str.dropWhile isSpace)).2.dropWhile Char.isDigit

/-- The number with its sign; 0 when there are no digits. -/
def numberOf (str : List Char) : Int :=
  if (signOf (str.dropWhile isSpace)).1 then -(decimal (digitsOf str) : Int)
  else decimal (digitsOf str)

def multiplier (rest : List Char) : Nat :=
  match rest.head? with
  | some 'k' | some 'K' => 1024
  | some 'm' | some 'M' => 1024 * 1024
  | some 'g' | some 'G' => 1024 * 1024 * 1024
  | _ => 1

/-- The number times its suffix multiplier. -/
def product (str : List Char) : Int := numberOf str * multiplier (restOf str)

/-- The number is out of range for `strtoul`, which is then the last to set `errno`. -/
def tooLarge (content : Option (List Char)) : Bool :=
  content.any fun str => decide (ulongMax < (numberOf str).natAbs)

/-- The size parser ignores the text. `stale` is an `errno` left behind by an earlier
variable: it makes the parser take 0 and `ULONG_MAX` for failures. -/
def Ignored (str : List Char) (stale : Bool) : Prop :=
  digitsOf str = [] ∨ ulongMax < (numberOf str).natAbs ∨
    stale = true ∧ (numberOf str = 0 ∨ numberOf str = ulongMax ∨ numberOf str = -1)

instance (str : List Char) (stale : Bool) : Decidable (Ignored str stale) :=
  inferInstanceAs (Decidable (_ ∨ _))

/-- The size that a variable asks for, as an exact integer. -/
def requestedSize (content : Option (List Char)) (defaultValue : Nat) (stale : Bool) : Int :=
  match content with
  | none => defaultValue
  | some str => if Ignored str stale then defaultValue else product str

/-- A size that is not the default is the product. -/
def ExactSize (content : Option (List Char)) (stale : Bool) (size : Nat) : Prop :=
  ∀ str, content = some str → ¬ Ignored str stale → (size : Int) = product str

/-- The product is a `size_t`. -/
def ProductFits (content : Option (List Char)) (stale : Bool) : Prop :=
  ∀ str, content = some str → ¬ Ignored str stale → 0 ≤ product str ∧ product str < 2 ^ 64

/-! ## The parsers -/

theorem length_signOf (str : List Char) : (signOf str).2.length ≤ str.length := by
  unfold signOf
  split
  · exact Nat.le_succ _
  · exact Nat.le_succ _
  · exact Nat.le_refl _

/-- A conversion ends behind its first digit. -/
theorem restOf_ne {str : List Char} (some : digitsOf str ≠ []) : restOf str ≠ str := by
  intro same
  have sign := length_signOf (str.dropWhile isSpace)
  have spaces := (List.dropWhile_sublist isSpace (l := str)).length_le
  have parts := congrArg List.length
    (List.takeWhile_append_dropWhile (p := Char.isDigit) (l := (signOf (str.dropWhile isSpace)).2))
  have positive := List.length_pos_of_ne_nil some
  rw [restOf] at same
  rw [digitsOf] at positive
  rw [List.length_append, same] at parts
  omega

theorem strtoul_eq (str : List Char) (libc : Libc) : strtoul str libc =
    if digitsOf str = [] then (0, str, libc)
    else if decimal (digitsOf str) > ulongMax then
      (ulongMax, restOf str, { libc with errno := erange })
    else
      (if (signOf (str.dropWhile isSpace)).1 then sizeSub 0 (decimal (digitsOf str))
        else decimal (digitsOf str), restOf str, libc) := rfl

/-- No conversion, a number out of range, or its value modulo `2 ^ 64`. -/
theorem strtoul_cases (str : List Char) (libc : Libc) :
    (digitsOf str = [] ∧ numberOf str = 0 ∧ strtoul str libc = (0, str, libc)) ∨
    (digitsOf str ≠ [] ∧ ulongMax < (numberOf str).natAbs ∧
      strtoul str libc = (ulongMax, restOf str, { libc with errno := erange })) ∨
    digitsOf str ≠ [] ∧ (numberOf str).natAbs ≤ ulongMax ∧
      ∃ value : Nat, strtoul str libc = (value, restOf str, libc) ∧
        value < 2 ^ 64 ∧ (value : Int) = numberOf str % 2 ^ 64 := by
  rw [strtoul_eq, numberOf]
  by_cases none : digitsOf str = []
  · rw [if_pos none, none]
    exact Or.inl ⟨rfl, by split <;> rfl, rfl⟩
  rw [if_neg none]
  generalize (signOf (str.dropWhile isSpace)).1 = negative
  generalize decimal (digitsOf str) = n
  by_cases large : n > ulongMax
  · rw [if_pos large]
    refine Or.inr (Or.inl ⟨none, ?_, rfl⟩)
    split <;> omega
  · rw [if_neg large]
    refine Or.inr (Or.inr ⟨none, by split <;> omega, _, rfl, ?_⟩)
    simp only [ulongMax] at large
    cases negative with
    | false =>
      rw [if_neg Bool.false_ne_true, if_neg Bool.false_ne_true]
      omega
    | true =>
      have negated : sizeSub 0 n = if n = 0 then 0 else 2 ^ 64 - n := by
        simp only [sizeSub, sizeModulus]
        split <;> omega
      rw [if_pos rfl, if_pos rfl, negated]
      split <;> omega

/-- The value of `errno` after a variable was read. -/
def errnoAfter (stale : Bool) : Nat := if stale then erange else 0

theorem outOfRange_zero (errno : Nat) : outOfRange 0 errno ↔ errno ≠ 0 := by
  constructor
  · rintro (⟨range, -⟩ | ⟨set, -⟩)
    · rw [range]
      decide
    · exact set
  · exact fun set => Or.inr ⟨set, rfl⟩

theorem outOfRange_errnoAfter (value : Nat) (stale : Bool) :
    outOfRange value (errnoAfter stale) ↔ stale = true ∧ (value = 0 ∨ value = ulongMax) := by
  cases stale with
  | false =>
    constructor
    · rintro (⟨range, -⟩ | ⟨set, -⟩)
      · exact absurd range (by decide)
      · exact absurd rfl set
    · rintro ⟨stale, -⟩
      exact absurd stale Bool.false_ne_true
  | true =>
    constructor
    · rintro (⟨-, max | zero⟩ | ⟨-, zero⟩)
      · exact ⟨rfl, Or.inr max⟩
      · exact ⟨rfl, Or.inl zero⟩
      · exact ⟨rfl, Or.inl zero⟩
    · rintro ⟨-, zero | max⟩
      · exact Or.inl ⟨rfl, Or.inr zero⟩
      · exact Or.inl ⟨rfl, Or.inl max⟩

theorem tooLarge_some (str : List Char) :
    tooLarge (some str) = decide (ulongMax < (numberOf str).natAbs) := rfl

/-- `errno` is only ever set, and only by a number out of range. -/
theorem strtoul_errno (str : List Char) {libc : Libc} {stale : Bool}
    (errno : libc.errno = errnoAfter stale) :
    (strtoul str libc).2.2.errno = errnoAfter (stale || tooLarge (some str)) := by
  rw [tooLarge_some]
  rcases strtoul_cases str libc with ⟨-, zero, none⟩ | ⟨-, large, range⟩ | ⟨-, small, value, taken, -⟩
  · rw [none, zero, decide_eq_false (by simp [ulongMax]), Bool.or_false]
    exact errno
  · rw [range, decide_eq_true large, Bool.or_true]
    rfl
  · rw [taken, decide_eq_false (by omega), Bool.or_false]
    exact errno

theorem ignoring_errno (name : String) (libc : Libc) : (ignoring name libc).errno = libc.errno := rfl

theorem size_errno (name : String) (content : Option (List Char)) (defaultValue : Nat)
    {libc : Libc} {stale : Bool} (errno : libc.errno = errnoAfter stale) :
    (getSizeFromEnvironmentVariable name content defaultValue libc).2.errno =
      errnoAfter (stale || tooLarge content) := by
  cases content with
  | none => rw [show tooLarge none = false from rfl, Bool.or_false]; exact errno
  | some str =>
    rw [← strtoul_errno str errno, getSizeFromEnvironmentVariable]
    dsimp only
    split
    · exact ignoring_errno name _
    · rfl

/-- The check of the size parser is `Ignored`. -/
theorem ignored_iff (str : List Char) {libc : Libc} {stale : Bool}
    (errno : libc.errno = errnoAfter stale) :
    (outOfRange (strtoul str libc).1 (strtoul str libc).2.2.errno ∨ (strtoul str libc).2.1 = str) ↔
      Ignored str stale := by
  rw [strtoul_errno str errno, outOfRange_errnoAfter, tooLarge_some]
  rcases strtoul_cases str libc with
    ⟨none, -, parsed⟩ | ⟨-, large, parsed⟩ | ⟨some, small, value, parsed, bound, value_eq⟩
  · exact iff_of_true (Or.inr (by rw [parsed])) (Or.inl none)
  · refine iff_of_true (Or.inl ⟨?_, Or.inr (by rw [parsed])⟩) (Or.inr (Or.inl large))
    rw [decide_eq_true large, Bool.or_true]
  · rw [parsed, decide_eq_false (by omega), Bool.or_false, Ignored]
    have values : (value = 0 ∨ value = ulongMax) ↔
        (numberOf str = 0 ∨ numberOf str = ulongMax ∨ numberOf str = -1) := by
      simp only [ulongMax] at *
      omega
    constructor
    · rintro (⟨set, edge⟩ | same)
      · exact Or.inr (Or.inr ⟨set, values.mp edge⟩)
      · exact absurd same (restOf_ne some)
    · rintro (none | large | ⟨set, edge⟩)
      · exact absurd none some
      · omega
      · exact Or.inl ⟨set, values.mpr edge⟩

theorem withSuffix_eq {value : Nat} (small : value < 2 ^ 64) (rest : List Char) :
    withSuffix value rest = value * multiplier rest % 2 ^ 64 := by
  -- the two matches go through the same cases
  fun_cases withSuffix value rest <;> simp_all only [multiplier, sizeMul, sizeModulus] <;> omega

/-- The parser returns the requested size modulo `2 ^ 64`. -/
theorem size_eq (name : String) (content : Option (List Char)) {defaultValue : Nat}
    (small : defaultValue < 2 ^ 64) {libc : Libc} {stale : Bool}
    (errno : libc.errno = errnoAfter stale) :
    ((getSizeFromEnvironmentVariable name content defaultValue libc).1 : Int) =
      requestedSize content defaultValue stale % 2 ^ 64 := by
  cases content with
  | none =>
    change (defaultValue : Int) = defaultValue % 2 ^ 64
    omega
  | some str =>
    rw [getSizeFromEnvironmentVariable, requestedSize]
    dsimp only
    by_cases ignored : Ignored str stale
    · rw [if_pos ignored, if_pos ((ignored_iff str errno).mpr ignored)]
      dsimp only
      omega
    · have taken := mt (ignored_iff str errno).mp ignored
      rw [if_neg ignored, if_neg taken]
      rcases strtoul_cases str libc with
        ⟨none, -, -⟩ | ⟨-, large, -⟩ | ⟨-, -, value, parsed, bound, value_eq⟩
      · exact absurd (Or.inl none) ignored
      · exact absurd (Or.inr (Or.inl large)) ignored
      · rw [parsed, product]
        dsimp only
        rw [withSuffix_eq bound, Int.natCast_emod, Int.natCast_mul, value_eq]
        exact Int.ModEq.mul_right _ (Int.mod_modEq _ _)

/-- The size is exact when the product does not wrap. -/
theorem exactSize_iff {content : Option (List Char)} {defaultValue size : Nat} {stale : Bool}
    (wrapped : (size : Int) = requestedSize content defaultValue stale % 2 ^ 64) :
    ExactSize content stale size ↔ ProductFits content stale := by
  refine forall_congr' fun str => forall_congr' fun given => forall_congr' fun taken => ?_
  rw [given, requestedSize, if_neg taken] at wrapped
  rw [wrapped]
  omega

/-- The integer parser takes a 0 when `errno` is clear. -/
theorem taken_zero (value errno : Nat) :
    (if outOfRange value errno then 3 else value) = 0 ↔ value = 0 ∧ errno = 0 := by
  by_cases range : outOfRange value errno
  · rw [if_pos range]
    refine iff_of_false (by decide) ?_
    rintro ⟨rfl, clear⟩
    exact (outOfRange_zero errno).mp range clear
  · rw [if_neg range]
    refine ⟨fun zero => ⟨zero, ?_⟩, And.left⟩
    rw [zero, outOfRange_zero] at range
    exact not_not.mp range

theorem divisor_zero (name : String) (content : Option (List Char)) {libc : Libc} {stale : Bool}
    (errno : libc.errno = errnoAfter stale) :
    (getIntegerFromEnvironmentVariable name content 3 libc).1 = 0 ↔
      stale = false ∧ ∃ str, content = some str ∧ numberOf str = 0 := by
  cases content with
  | none =>
    refine iff_of_false (Nat.succ_ne_zero 2) ?_
    rintro ⟨-, str, given, -⟩
    cases given
  | some str =>
    have parsed : (getIntegerFromEnvironmentVariable name (some str) 3 libc).1 =
        if outOfRange (strtoul str libc).1 (strtoul str libc).2.2.errno then 3
        else (strtoul str libc).1 := by
      rw [getIntegerFromEnvironmentVariable]
      dsimp only
      split <;> rfl
    have text : (∃ str', some str = some str' ∧ numberOf str' = 0) ↔ numberOf str = 0 := by
      simp only [Option.some.injEq, exists_eq_left']
    have clear : errnoAfter (stale || tooLarge (some str)) = 0 ↔
        stale = false ∧ tooLarge (some str) = false := by
      rw [← Bool.or_eq_false_iff]
      cases stale || tooLarge (some str) <;> decide
    rw [parsed, taken_zero, strtoul_errno str errno, clear, text, tooLarge_some, decide_eq_false_iff_not]
    rcases strtoul_cases str libc with
      ⟨-, zero, parsed⟩ | ⟨-, large, parsed⟩ | ⟨-, small, value, parsed, bound, value_eq⟩
    · rw [parsed, zero]
      simp [ulongMax]
    · refine iff_of_false (fun ⟨_, _, fits⟩ => fits large) fun ⟨_, zero⟩ => ?_
      rw [zero] at large
      exact absurd large (by decide)
    · rw [parsed]
      simp only [ulongMax] at *
      constructor
      · rintro ⟨zero, fresh, -⟩
        exact ⟨fresh, by omega⟩
      · rintro ⟨fresh, zero⟩
        exact ⟨by omega, fresh, by omega⟩

/-! ## The mappings -/

/-- What `mmap` may return for the two heaps: multiples of the page size, with `limit` bytes
of addresses behind each that share nothing. It fails for 0 bytes, and for more than the
largest virtual address space, which has `2 ^ 57` bytes. -/
structure MmapResults (limit smallMap largeMap : Nat) : Prop where
  size : 0 < limit ∧ limit < 2 ^ 57
  page : smallMap % 4096 = 0 ∧ largeMap % 4096 = 0
  small : 0 < smallMap ∧ smallMap + limit ≤ sizeModulus
  large : 0 < largeMap ∧ largeMap + limit ≤ sizeModulus
  disjoint : smallMap + limit ≤ largeMap ∨ largeMap + limit ≤ smallMap

/-- The small heap, mapped at a power of two below the large one. -/
theorem MmapResults.low {limit mapped : Nat} (size : 0 < limit ∧ limit < 2 ^ 57)
    (page : mapped % 4096 = 0) (some : 0 < mapped) (below : mapped ≤ 2 ^ 57) :
    MmapResults limit mapped (2 ^ 60) := by
  refine ⟨size, ⟨page, by decide⟩, ⟨some, ?_⟩, ⟨by decide, ?_⟩, Or.inl ?_⟩ <;>
    (try simp only [sizeModulus]) <;> omega

/-- Some mapping is aligned past the end of the initial heap, unless a block is left. -/
theorem room_needed {limit initialSize : Nat} (size : 0 < limit ∧ limit < 2 ^ 57)
    (enough : 2 * blockSize ≤ initialSize) (multiple : initialSize % blockSize = 0)
    (fits : initialSize < 2 ^ 64) (short : limit < initialSize + blockSize) :
    ∃ smallMap, MmapResults limit smallMap (2 ^ 60) ∧
      smallMap + limit < GlobalAllocator.mapAndAlign smallMap initialSize + initialSize := by
  have positive : 0 < initialSize := by
    simp only [blockSize] at enough
    omega
  by_cases less : limit < initialSize
  · obtain ⟨-, above, -⟩ := mapAndAlign_spec 4096 multiple positive
      (by simp only [sizeModulus]; omega)
    exact ⟨4096, MmapResults.low size (by decide) (by decide) (by decide), by omega⟩
  · -- the highest bit of `initialSize - 1` is not below the block size
    have notZero : initialSize - 1 ≠ 0 := by
      simp only [blockSize] at enough
      omega
    have bit := Nat.testBit_log2 notZero
    have high : 15 ≤ (initialSize - 1).log2 := by
      rw [Nat.le_log2 notZero]
      simp only [blockSize] at enough
      omega
    have below : (initialSize - 1).log2 < 57 := by
      rw [Nat.log2_lt notZero]
      omega
    generalize (initialSize - 1).log2 = k at *
    obtain ⟨q, power⟩ : 2 ^ 15 ∣ 2 ^ k := Nat.pow_dvd_pow 2 high
    have top : 2 ^ k ≤ 2 ^ 57 := Nat.pow_le_pow_right (by decide) below.le
    have unaligned : 2 ^ k &&& (sizeModulus - 1 - (initialSize - 1)) ≠ 2 ^ k := by
      intro same
      have set := congrArg (Nat.testBit · k) same
      have mask : sizeModulus - 1 - (initialSize - 1) = 2 ^ 64 - (initialSize - 1 + 1) := by
        simp only [sizeModulus]
        omega
      simp only [mask, Nat.testBit_and, Nat.testBit_two_pow_self,
        Nat.testBit_two_pow_sub_succ (show initialSize - 1 < 2 ^ 64 by omega), bit] at set
      simp at set
    refine ⟨2 ^ k, MmapResults.low size (by omega) (Nat.two_pow_pos k) top, ?_⟩
    rw [GlobalAllocator.mapAndAlign, if_pos unaligned]
    simp only [Block.from, blockSize] at *
    omega

theorem init_returns {initialSize : Nat} (enough : 2 * blockSize ≤ initialSize)
    (multiple : initialSize % blockSize = 0) (smallMap largeMap memoryLimit freeSpaceDivisor : Nat)
    (block : Nat → Block) (chunk : Nat → Chunk) :
    ∃ block' global, GlobalAllocator.init smallMap largeMap memoryLimit freeSpaceDivisor initialSize
      block chunk = .ok (block', global) := by
  obtain ⟨finalizers, created⟩ : ∃ finalizers, Hash.create 8 = .ok finalizers := ⟨_, rfl⟩
  rw [GlobalAllocator.init, check_of_true (decide_eq_true (by omega)), ok_bind,
    check_of_true (by rw [multiple]; rfl), ok_bind]
  dsimp only
  rw [created]
  exact ⟨_, _, rfl⟩

/-- What is written of a heap lies in the `limit` bytes that were mapped. -/
def InsideMapping (mapped limit start stop : Nat) : Prop := mapped ≤ start ∧ stop ≤ mapped + limit

/-- For every result of `mmap`, both heaps that `GC_GlobalAllocator_init` writes. -/
def HeapsInside (options : Options) : Prop :=
  ∀ smallMap largeMap block chunk block' global,
    MmapResults options.memoryLimit smallMap largeMap →
    GlobalAllocator.init smallMap largeMap options.memoryLimit options.freeSpaceDivisor
      options.initialSize block chunk = .ok (block', global) →
    InsideMapping smallMap options.memoryLimit global.smallHeapStart global.smallHeapStop ∧
      InsideMapping largeMap options.memoryLimit global.largeHeapStart global.largeHeapStop

theorem heapsInside_iff {options : Options} (enough : 2 * blockSize ≤ options.initialSize)
    (multiple : options.initialSize % blockSize = 0) (fits : options.initialSize < 2 ^ 64) :
    HeapsInside options ↔ (0 < options.memoryLimit → options.memoryLimit < 2 ^ 57 →
      options.initialSize + blockSize ≤ options.memoryLimit) := by
  constructor
  · intro inside positive below
    by_contra short
    obtain ⟨smallMap, result, past⟩ :=
      room_needed ⟨positive, below⟩ enough multiple fits (by omega)
    obtain ⟨block', global, success⟩ := init_returns enough multiple smallMap (2 ^ 60)
      options.memoryLimit options.freeSpaceDivisor (fun _ => Block.init) (fun _ => Chunk.init 0)
    obtain ⟨-, -, _, _, -, -, rfl⟩ := init_ok success
    have stop := (inside _ _ _ _ _ _ result success).1.2
    dsimp only at stop
    omega
  · intro room smallMap largeMap block chunk block' global result success
    have room := room result.size.1 result.size.2
    have bounds := fun mapped => (mapAndAlign_spec mapped multiple
      (by simp only [blockSize] at enough; omega) (by simp only [sizeModulus]; omega)).2
    obtain ⟨-, -, _, _, -, -, rfl⟩ := init_ok success
    have left := bounds smallMap
    have right := bounds largeMap
    refine ⟨⟨left.1, ?_⟩, right.1, ?_⟩ <;> dsimp only <;> omega

/-! ## Accepted configurations -/

/-- `GC_GlobalAllocator_tryCollect` does not divide by 0 itself. -/
def DivisionDefined (options : Options) : Prop :=
  ∀ collect g, g.global.freeSpaceDivisor = options.freeSpaceDivisor →
    GlobalAllocator.tryCollect collect g = .error (.undefined "division by zero") →
    collect g = .error (.undefined "division by zero")

theorem divisionDefined_of_ne {options : Options} (divisor : options.freeSpaceDivisor ≠ 0) :
    DivisionDefined options := by
  intro collect g same stopped
  rw [GlobalAllocator.tryCollect, same, if_neg divisor] at stopped
  split at stopped
  · cases stopped
  split at stopped
  · cases stopped
  cases result : collect g with
  | ok g' => rw [result] at stopped; cases stopped
  | error stop =>
    rw [result, error_bind, Except.error.injEq] at stopped
    rw [stopped]

/-- The two assertions of `GC_GlobalAllocator_init`. -/
structure Accepted (options : Options) : Prop where
  enough : 2 * blockSize ≤ options.initialSize
  multiple : options.initialSize % blockSize = 0

structure SafeConfiguration (environment : Environment) (options : Options) : Prop where
  initial : ExactSize environment.initialHeapSize false options.initialSize
  maximum : ExactSize environment.maximumHeapSize (tooLarge environment.initialHeapSize)
    options.memoryLimit
  divisor : options.freeSpaceDivisor ≠ 0
  division : DivisionDefined options
  heaps : HeapsInside options

/-- No product wraps, the divisor's text has a number other than 0 unless an earlier text left
`errno` set, and a limit that `mmap` can map has a block more than the initial size. -/
structure SafeTexts (environment : Environment) (physPages pageSize : Nat) : Prop where
  initial : ProductFits environment.initialHeapSize false
  maximum : ProductFits environment.maximumHeapSize (tooLarge environment.initialHeapSize)
  divisor : ∀ str, environment.freeSpaceDivisor = some str → numberOf str = 0 →
    tooLarge environment.initialHeapSize = true ∨ tooLarge environment.maximumHeapSize = true
  room :
    let limit := requestedSize environment.maximumHeapSize
      (Environment.getMemoryLimit physPages pageSize) (tooLarge environment.initialHeapSize)
    0 < limit → limit < 2 ^ 57 →
      requestedSize environment.initialHeapSize (4 * 1024 * 1024) false + blockSize ≤ limit

/-- A requested size is exact as soon as its product fits. -/
theorem requestedSize_bounds {content : Option (List Char)} {defaultValue : Nat} {stale : Bool}
    (small : defaultValue < 2 ^ 64) (fits : ProductFits content stale) :
    0 ≤ requestedSize content defaultValue stale ∧
      requestedSize content defaultValue stale < 2 ^ 64 := by
  cases content with
  | none => exact ⟨Int.natCast_nonneg _, by show (defaultValue : Int) < _; omega⟩
  | some str =>
    rw [requestedSize]
    split
    · omega
    · next taken => exact fits str rfl taken

/-- What the three parsers return, one after the other. -/
theorem readOptions_spec (environment : Environment) (physPages pageSize : Nat)
    (stderr : List String) :
    let options := (readOptions environment physPages pageSize ⟨0, stderr⟩).1
    (options.initialSize : Int) =
        requestedSize environment.initialHeapSize (4 * 1024 * 1024) false % 2 ^ 64 ∧
      (options.memoryLimit : Int) =
        requestedSize environment.maximumHeapSize (Environment.getMemoryLimit physPages pageSize)
          (tooLarge environment.initialHeapSize) % 2 ^ 64 ∧
      (options.freeSpaceDivisor = 0 ↔
        (tooLarge environment.initialHeapSize || tooLarge environment.maximumHeapSize) = false ∧
          ∃ str, environment.freeSpaceDivisor = some str ∧ numberOf str = 0) := by
  have limit : Environment.getMemoryLimit physPages pageSize < 2 ^ 64 :=
    Nat.mod_lt _ (Nat.two_pow_pos 64)
  have clear : (Libc.mk 0 stderr).errno = errnoAfter false := rfl
  have first := size_errno "GC_INITIAL_HEAP_SIZE" environment.initialHeapSize (4 * 1024 * 1024) clear
  rw [Bool.false_or] at first
  have second := size_errno "GC_MAXIMUM_HEAP_SIZE" environment.maximumHeapSize
    (Environment.getMemoryLimit physPages pageSize) first
  exact ⟨size_eq _ _ (by decide) clear, size_eq _ _ limit first, divisor_zero _ _ second⟩

/-- A configuration that the assertions accept is safe exactly when its texts are. -/
theorem accepted_configuration_safe (environment : Environment) (physPages pageSize : Nat)
    (stderr : List String)
    (accepted : Accepted (readOptions environment physPages pageSize ⟨0, stderr⟩).1) :
    SafeConfiguration environment (readOptions environment physPages pageSize ⟨0, stderr⟩).1 ↔
      SafeTexts environment physPages pageSize := by
  obtain ⟨initial, maximum, divisor⟩ := readOptions_spec environment physPages pageSize stderr
  generalize (readOptions environment physPages pageSize ⟨0, stderr⟩).1 = options at *
  have limit : Environment.getMemoryLimit physPages pageSize < 2 ^ 64 :=
    Nat.mod_lt _ (Nat.two_pow_pos 64)
  have fits : options.initialSize < 2 ^ 64 := by omega
  have heaps := heapsInside_iff accepted.enough accepted.multiple fits
  have zero : options.freeSpaceDivisor ≠ 0 ↔ ∀ str, environment.freeSpaceDivisor = some str →
      numberOf str = 0 → tooLarge environment.initialHeapSize = true ∨
        tooLarge environment.maximumHeapSize = true := by
    rw [Ne, divisor, ← Bool.not_eq_true, Bool.or_eq_true]
    constructor
    · intro divides str given number
      by_contra neither
      exact divides ⟨neither, str, given, number⟩
    · rintro set ⟨neither, str, given, number⟩
      exact neither (set str given number)
  have sizes (first : ProductFits environment.initialHeapSize false)
      (second : ProductFits environment.maximumHeapSize (tooLarge environment.initialHeapSize)) :
      (options.initialSize : Int) =
          requestedSize environment.initialHeapSize (4 * 1024 * 1024) false ∧
        (options.memoryLimit : Int) = requestedSize environment.maximumHeapSize
          (Environment.getMemoryLimit physPages pageSize) (tooLarge environment.initialHeapSize) := by
    have := @requestedSize_bounds _ (4 * 1024 * 1024) _ (by decide) first
    have := requestedSize_bounds limit second
    omega
  constructor
  · intro safe
    have first := (exactSize_iff initial).mp safe.initial
    have second := (exactSize_iff maximum).mp safe.maximum
    refine ⟨first, second, zero.mp safe.divisor, ?_⟩
    have room := heaps.mp safe.heaps
    have exact' := sizes first second
    omega
  · intro texts
    refine ⟨(exactSize_iff initial).mpr texts.initial, (exactSize_iff maximum).mpr texts.maximum,
      zero.mpr texts.divisor, divisionDefined_of_ne (zero.mpr texts.divisor), heaps.mpr ?_⟩
    have room := texts.room
    have exact' := sizes texts.initial texts.maximum
    omega

/-- `GC_INITIAL_HEAP_SIZE=64k`, `GC_MAXIMUM_HEAP_SIZE=1g`, `GC_FREE_SPACE_DIVISOR=4`. -/
theorem smallHeap_safe :
    SafeConfiguration ⟨some ['6', '4', 'k'], some ['1', 'g'], some ['4']⟩
      (readOptions ⟨some ['6', '4', 'k'], some ['1', 'g'], some ['4']⟩ 4096 4096 ⟨0, []⟩).1 := by
  refine (accepted_configuration_safe _ 4096 4096 [] ⟨by decide, by decide⟩).mpr ⟨?_, ?_, ?_, ?_⟩
  · rintro str ⟨⟩ -
    decide
  · rintro str ⟨⟩ -
    decide
  · rintro str ⟨⟩
    decide
  · decide

/-- A divisor without digits is 0, a size wraps to 1 GiB, and a limit has no block to spare. -/
theorem accepted_texts_unsafe :
    let word : Environment := ⟨none, none, some ['a', 'b', 'c']⟩
    let huge : Environment :=
      ⟨some ['1', '7', '1', '7', '9', '8', '6', '9', '1', '8', '5', 'g'], none, none⟩
    let tight : Environment := ⟨none, some ['4', 'm'], none⟩
    let options := fun environment => (readOptions environment 4194304 4096 ⟨0, []⟩).1
    (Accepted (options word) ∧ (options word).freeSpaceDivisor = 0 ∧
      ¬ SafeConfiguration word (options word)) ∧
    (Accepted (options huge) ∧ (options huge).initialSize = 2 ^ 30 ∧
      ¬ SafeConfiguration huge (options huge)) ∧
    Accepted (options tight) ∧ ¬ SafeConfiguration tight (options tight) := by
  refine ⟨⟨⟨by decide, by decide⟩, by decide, fun safe => safe.divisor (by decide)⟩,
    ⟨⟨by decide, by decide⟩, by decide, fun safe => ?_⟩, ⟨by decide, by decide⟩, fun safe => ?_⟩
  · exact absurd (safe.initial _ rfl (by decide)) (by decide)
  · have room := (heapsInside_iff (by decide) (by decide) (by decide)).mp safe.heaps
    exact absurd room (by decide)

end ImmixGc.Guarantees
