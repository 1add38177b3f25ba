import ImmixGc.Source.Array
import Mathlib.Data.List.GetD

/-!
# The registry of local allocators is a list

The collector's state keeps `GC_local_allocators` as a list. `Array` implements it: pushing
appends through any number of doublings, and deleting shifts the items behind the first
occurrence down by one. The shifting loop runs to the limit and not to the last item, so its
last read is one slot past the buffer.
-/
namespace ImmixGc.Guarantees
open Source

/-- The items of `count` slots from `cursor` on. -/
def itemsFrom (buffer : Nat → Nat) (cursor count : Nat) : List Nat :=
  (List.range' cursor count).map buffer

/-- The items between `buffer` and `cursor`. -/
def contents (self : Source.Array) : List Nat := itemsFrom self.buffer 0 self.cursor

/-- The pointers of an array after `Array_init`. A capacity of `2 ^ 60` slots has `2 ^ 63`
bytes, more than any block. -/
structure ArrayOk (array : Source.Array) : Prop where
  limit : array.limit = array.capacity
  within : array.cursor ≤ array.capacity
  some : 0 < array.capacity
  addressable : array.capacity < 2 ^ 60

def InBounds (touched : List Touch) : Prop := ∀ touch ∈ touched, touch.slot < touch.capacity

def reallocFailed : Stop := .abort "GC: realloc"

/-! ## Items -/

section Items
variable {buffer other : Nat → Nat} (cursor count : Nat)

theorem itemsFrom_succ : itemsFrom buffer cursor (count + 1) =
    buffer cursor :: itemsFrom buffer (cursor + 1) count := rfl

theorem length_itemsFrom : (itemsFrom buffer cursor count).length = count := by
  rw [itemsFrom, List.length_map, List.length_range']

theorem itemsFrom_concat : itemsFrom buffer cursor (count + 1) =
    itemsFrom buffer cursor count ++ [buffer (cursor + count)] := by
  rw [itemsFrom, List.range'_1_concat, List.map_append]
  rfl

theorem itemsFrom_congr (same : ∀ slot, cursor ≤ slot → slot < cursor + count →
    buffer slot = other slot) : itemsFrom buffer cursor count = itemsFrom other cursor count := by
  refine List.map_congr_left fun slot member => ?_
  rw [List.mem_range'_1] at member
  exact same slot member.1 member.2

/-- Reading every slot one further is reading from the next slot on. -/
theorem itemsFrom_next (same : ∀ slot, cursor ≤ slot → slot < cursor + count →
    other slot = buffer (slot + 1)) :
    itemsFrom other cursor count = itemsFrom buffer (cursor + 1) count := by
  induction count generalizing cursor with
  | zero => rfl
  | succ count ih =>
    rw [itemsFrom_succ, itemsFrom_succ, same cursor (Nat.le_refl _) (by omega),
      ih (cursor + 1) fun slot low high => same slot (by omega) (by omega)]

end Items

/-! ## One operation -/

section Operations
variable {self : Source.Array}

theorem inBounds_nil : InBounds [] := fun _ none => absurd none List.not_mem_nil

theorem inBounds_append {first second : List Touch} :
    InBounds (first ++ second) ↔ InBounds first ∧ InBounds second :=
  List.forall_mem_append

theorem inBounds_cons {touch : Touch} {rest : List Touch} :
    InBounds (touch :: rest) ↔ touch.slot < touch.capacity ∧ InBounds rest :=
  List.forall_mem_cons

/-- A block for fewer than `2 ^ 61` slots has the size that was asked for. -/
theorem realloc_ok {realloc : Realloc} {buffer block : Nat → Nat} {kept newCapacity : Nat}
    (small : newCapacity < 2 ^ 61)
    (success : realloc.call buffer kept (sizeMul newCapacity wordSize) = .ok block) :
    newCapacity < 2 ^ 60 ∧ ∀ slot < kept, slot < newCapacity → block slot = buffer slot := by
  have bytes : sizeMul newCapacity wordSize = newCapacity * 8 := by
    simp only [sizeMul, wordSize, sizeModulus]
    omega
  rw [Realloc.call, bytes] at success
  split at success
  · next fits =>
    refine ⟨by omega, fun slot old new => ?_⟩
    have inside : slot < kept ∧ slot < newCapacity * 8 / wordSize :=
      ⟨old, by simp only [wordSize]; omega⟩
    rw [← Except.ok.inj success]
    exact if_pos inside
  · cases success

theorem realloc_error {realloc : Realloc} {buffer : Nat → Nat} {kept bytes : Nat} {stop : Stop}
    (failure : realloc.call buffer kept bytes = .error stop) : stop = reallocFailed := by
  rw [Realloc.call] at failure
  split at failure
  · cases failure
  · exact (Except.error.inj failure).symm

/-- `Array_init` leaves an empty array. -/
theorem init_array (capacity : Nat) (realloc : Realloc) (some : 1 ≤ capacity)
    (small : capacity < 2 ^ 61) :
    (∃ array, Source.Array.init capacity realloc = .ok array ∧ ArrayOk array ∧ contents array = []) ∨
      Source.Array.init capacity realloc = .error reallocFailed := by
  rw [Source.Array.init, Source.Array.resize]
  cases called : realloc.call (fun _ => null) 0 (sizeMul capacity wordSize) with
  | error stop =>
    rw [← realloc_error called]
    exact Or.inr rfl
  | ok block =>
    obtain ⟨addressable, -⟩ := realloc_ok small called
    exact Or.inl ⟨_, rfl, ⟨rfl, Nat.zero_le _, some, addressable⟩, rfl⟩

/-- `Array_push` appends, and writes one slot. -/
theorem push_array (ok : ArrayOk self) (item : Nat) (realloc : Realloc) :
    (∃ array touched, self.push item realloc = .ok (array, touched) ∧ ArrayOk array ∧
      contents array = contents self ++ [item] ∧ InBounds touched) ∨
      self.push item realloc = .error reallocFailed := by
  obtain ⟨limit, within, some, addressable⟩ := ok
  -- the array after a resize, or the array itself
  have store_last : ∀ array : Source.Array, ArrayOk array → array.cursor < array.capacity →
      array.cursor = self.cursor → (∀ slot < self.cursor, array.buffer slot = self.buffer slot) →
      ArrayOk { array with
          buffer := store array.buffer array.cursor item, cursor := array.cursor + 1 } ∧
        contents { array with
          buffer := store array.buffer array.cursor item, cursor := array.cursor + 1 } =
            contents self ++ [item] := by
    intro array ok room cursor same
    refine ⟨⟨ok.limit, room, ok.some, ok.addressable⟩, ?_⟩
    rw [contents, itemsFrom_concat, contents]
    dsimp only
    rw [Nat.zero_add, store_same, cursor]
    refine congrArg (· ++ [item]) (itemsFrom_congr 0 self.cursor fun slot _ high => ?_)
    rw [store_other _ _ _ _ (by omega)]
    exact same slot (by omega)
  rw [Source.Array.push]
  by_cases full : self.cursor = self.limit
  · rw [if_pos full, if_neg (by omega), Source.Array.resize]
    cases called : realloc.call self.buffer self.capacity
        (sizeMul (self.capacity * 2) wordSize) with
    | error stop =>
      rw [← realloc_error called]
      exact Or.inr rfl
    | ok block =>
      obtain ⟨addressable', same⟩ := realloc_ok (by omega) called
      have ok' : ArrayOk ⟨self.capacity * 2, block, self.cursor, self.capacity * 2⟩ :=
        ⟨rfl, by dsimp only; omega, by dsimp only; omega, addressable'⟩
      have room : self.cursor < self.capacity * 2 := by omega
      obtain ⟨pushed, appended⟩ := store_last _ ok' room rfl fun slot below =>
        same slot (by omega) (by omega)
      exact Or.inl ⟨_, _, rfl, pushed, appended, inBounds_cons.mpr ⟨room, inBounds_nil⟩⟩
  · rw [if_neg full]
    have room : self.cursor < self.capacity := by omega
    obtain ⟨pushed, appended⟩ := store_last self ⟨limit, within, some, addressable⟩ room rfl
      fun _ _ => rfl
    exact Or.inl ⟨_, _, rfl, pushed, appended, inBounds_cons.mpr ⟨room, inBounds_nil⟩⟩

/-- `Array_pop` takes the last item off. -/
theorem pop_array (ok : ArrayOk self) :
    self.pop.1 = ((contents self).getLast?).getD null ∧ ArrayOk self.pop.2.1 ∧
      contents self.pop.2.1 = (contents self).dropLast ∧
      InBounds self.pop.2.2 := by
  obtain ⟨limit, within, some, addressable⟩ := ok
  by_cases empty : self.cursor = 0
  · have none : contents self = [] := by
      rw [contents, empty]
      rfl
    rw [Source.Array.pop, Source.Array.isEmpty, if_pos (beq_iff_eq.mpr empty), none]
    exact ⟨rfl, ⟨limit, within, some, addressable⟩, rfl, inBounds_nil⟩
  · have last : contents self = itemsFrom self.buffer 0 (self.cursor - 1) ++
        [self.buffer (self.cursor - 1)] := by
      rw [contents, show self.cursor = self.cursor - 1 + 1 by omega, itemsFrom_concat, Nat.zero_add]
      rfl
    rw [Source.Array.pop, Source.Array.isEmpty, if_neg (by simpa using empty), last,
      List.getLast?_concat, List.dropLast_concat]
    exact ⟨rfl, ⟨limit, by dsimp only; omega, some, addressable⟩, rfl,
      inBounds_cons.mpr ⟨by dsimp only; omega, inBounds_nil⟩⟩

theorem get_array (ok : ArrayOk self) (index : Int) :
    (self.get index).1 =
        (if index < 0 then null else (contents self).getD index.toNat null) ∧
      InBounds (self.get index).2 := by
  obtain ⟨limit, within, some, addressable⟩ := ok
  have length : (contents self).length = self.cursor := length_itemsFrom _ _
  rw [Source.Array.get, Source.Array.size]
  split
  · next outside =>
    refine ⟨?_, inBounds_nil⟩
    split
    · rfl
    · rw [List.getD_eq_default _ _ (by omega)]
  · next inside =>
    refine ⟨?_, inBounds_cons.mpr ⟨by dsimp only; omega, inBounds_nil⟩⟩
    rw [if_neg (by omega), List.getD_eq_getElem _ _ (by omega)]
    simp [contents, itemsFrom]

/-- `Array_each` visits the items in order. -/
theorem each_array (ok : ArrayOk self) :
    self.each.1 = contents self ∧ InBounds self.each.2 := by
  have walk : ∀ count cursor, cursor + count ≤ self.capacity →
      (self.eachFrom count cursor).1 = itemsFrom self.buffer cursor count ∧
        InBounds (self.eachFrom count cursor).2 := by
    intro count
    induction count with
    | zero => exact fun _ _ => ⟨rfl, inBounds_nil⟩
    | succ count ih =>
      intro cursor room
      obtain ⟨items, touched⟩ := ih (cursor + 1) (by omega)
      rw [Source.Array.eachFrom, itemsFrom_succ]
      exact ⟨congrArg (self.buffer cursor :: ·) items,
        inBounds_cons.mpr ⟨by dsimp only; omega, touched⟩⟩
  exact walk self.cursor 0 (by rw [Nat.zero_add]; exact ok.within)

/-- `Array_clear`. -/
theorem clear_array (ok : ArrayOk self) :
    ArrayOk self.clear ∧ contents self.clear = [] := by
  obtain ⟨limit, within, some, addressable⟩ := ok
  rw [Source.Array.clear, Source.Array.isEmpty]
  split
  · next none =>
    refine ⟨⟨limit, within, some, addressable⟩, ?_⟩
    rw [contents, show self.cursor = 0 by simpa using none]
    rfl
  · exact ⟨⟨limit, Nat.zero_le _, some, addressable⟩, rfl⟩

/-- The shifting loop moves every slot up to the limit down by one. It touches `count + 1`
slots, the limit itself among them. -/
theorem shift_spec (capacity count cursor : Nat) (buffer : Nat → Nat) :
    (∀ slot, (Source.Array.shift capacity count cursor buffer).1 slot =
        if cursor ≤ slot ∧ slot < cursor + count then buffer (slot + 1) else buffer slot) ∧
      (0 < count → ⟨cursor + count, capacity⟩ ∈
        (Source.Array.shift capacity count cursor buffer).2) := by
  induction count generalizing cursor buffer with
  | zero =>
    refine ⟨fun slot => ?_, fun none => absurd none (Nat.lt_irrefl 0)⟩
    rw [if_neg (by omega)]
    rfl
  | succ count ih =>
    obtain ⟨moved, touched⟩ := ih (cursor + 1) (store buffer cursor (buffer (cursor + 1)))
    rw [Source.Array.shift]
    refine ⟨fun slot => ?_, fun _ => ?_⟩
    · refine (moved slot).trans ?_
      rcases Nat.lt_trichotomy slot cursor with below | rfl | above
      · rw [if_neg (by omega), if_neg (by omega), store_other _ _ _ _ (by omega)]
      · rw [if_neg (by omega), if_pos (by omega), store_same]
      · rw [store_other _ _ (slot + 1) _ (by omega), store_other _ _ slot _ (by omega)]
        simp only [show cursor + 1 ≤ slot ↔ cursor ≤ slot by omega, Nat.add_right_comm cursor 1 count,
          Nat.add_assoc]
    · cases count with
      | zero => exact List.mem_cons_self
      | succ count =>
        have later := touched (Nat.succ_pos count)
        rw [Nat.add_right_comm] at later
        exact List.mem_cons_of_mem _ (List.mem_cons_of_mem _ later)

theorem deleteFrom_absent (ok : ArrayOk self) (item count cursor : Nat)
    (rest : cursor + count = self.cursor)
    (absent : item ∉ itemsFrom self.buffer cursor count) :
    (self.deleteFrom item count cursor).1 = self ∧
      InBounds (self.deleteFrom item count cursor).2 := by
  have within := ok.within
  induction count generalizing cursor with
  | zero => exact ⟨rfl, inBounds_nil⟩
  | succ count ih =>
    rw [itemsFrom_succ, List.mem_cons, not_or] at absent
    obtain ⟨same, touched⟩ := ih (cursor + 1) (by omega) absent.2
    rw [Source.Array.deleteFrom, if_neg (Ne.symm absent.1)]
    exact ⟨same, inBounds_cons.mpr ⟨by dsimp only; omega, touched⟩⟩

/-- What a successful `Array_delete` leaves from slot `start` on, and that it touched the slot
at the limit. -/
structure DeletedFrom (item count start : Nat) (array deleted : Source.Array)
    (touched : List Touch) : Prop where
  shorter : deleted.cursor = array.cursor - 1
  limit : deleted.limit = array.limit
  capacity : deleted.capacity = array.capacity
  before : ∀ slot < start, deleted.buffer slot = array.buffer slot
  items : itemsFrom deleted.buffer start count =
    (itemsFrom array.buffer start (count + 1)).erase item
  outside : ⟨array.capacity, array.capacity⟩ ∈ touched

/-- The item is at the cursor. -/
theorem deleteFrom_here (ok : ArrayOk self) (item count cursor : Nat)
    (rest : cursor + (count + 1) = self.cursor) (here : self.buffer cursor = item) :
    DeletedFrom item count cursor self (self.deleteFrom item (count + 1) cursor).1
      (self.deleteFrom item (count + 1) cursor).2 := by
  obtain ⟨limit, within, -, -⟩ := ok
  obtain ⟨moved, touched⟩ :=
    shift_spec self.capacity (self.limit - cursor) cursor self.buffer
  rw [Source.Array.deleteFrom, if_pos here]
  refine ⟨rfl, rfl, rfl, fun slot below => ?_, ?_, ?_⟩
  · refine (moved slot).trans (if_neg ?_)
    omega
  · rw [itemsFrom_succ, here, List.erase_cons_head]
    refine itemsFrom_next cursor count fun slot low high => ?_
    refine (moved slot).trans (if_pos ?_)
    omega
  · have last := touched (by omega)
    rw [show cursor + (self.limit - cursor) = self.capacity by omega] at last
    exact List.mem_cons_of_mem _ last

theorem deleteFrom_found (ok : ArrayOk self) (item count cursor : Nat)
    (rest : cursor + (count + 1) = self.cursor)
    (found : item ∈ itemsFrom self.buffer cursor (count + 1)) :
    DeletedFrom item count cursor self (self.deleteFrom item (count + 1) cursor).1
      (self.deleteFrom item (count + 1) cursor).2 := by
  induction count generalizing cursor with
  | zero =>
    have here : self.buffer cursor = item := (List.mem_singleton.mp found).symm
    exact deleteFrom_here ok item 0 cursor rest here
  | succ count ih =>
    by_cases here : self.buffer cursor = item
    · exact deleteFrom_here ok item (count + 1) cursor rest here
    · rw [itemsFrom_succ, List.mem_cons] at found
      have later := ih (cursor + 1) (by omega) (found.resolve_left (Ne.symm here))
      rw [Source.Array.deleteFrom, if_neg here]
      refine ⟨later.shorter, later.limit, later.capacity,
        fun slot below => later.before slot (by omega), ?_, List.mem_cons_of_mem _ later.outside⟩
      rw [itemsFrom_succ, itemsFrom_succ _ (count + 1), List.erase_cons_tail (by simpa using here)]
      exact congrArg₂ List.cons (later.before cursor (by omega)) later.items

/-- `Array_delete` removes the first occurrence; it stays in the buffer exactly when there is
none. -/
theorem delete_array (ok : ArrayOk self) (item : Nat) :
    ArrayOk (self.delete item).1 ∧ contents (self.delete item).1 = (contents self).erase item ∧
      (InBounds (self.delete item).2 ↔ item ∉ contents self) := by
  by_cases found : item ∈ contents self
  · obtain ⟨count, more⟩ : ∃ count, self.cursor = count + 1 := by
      refine Nat.exists_eq_succ_of_ne_zero fun none => ?_
      rw [contents, none] at found
      exact absurd found List.not_mem_nil
    have deleted := deleteFrom_found ok item count 0 (by omega) (by rwa [contents, more] at found)
    rw [← more] at deleted
    obtain ⟨limit, within, some, addressable⟩ := ok
    have shorter : (self.delete item).1.cursor = count := deleted.shorter.trans (by omega)
    have sameLimit : (self.delete item).1.limit = self.limit := deleted.limit
    have sameCapacity : (self.delete item).1.capacity = self.capacity := deleted.capacity
    refine ⟨⟨?_, ?_, ?_, ?_⟩, ?_, ?_⟩
    · rw [sameLimit, sameCapacity, limit]
    · rw [shorter, sameCapacity]
      omega
    · rw [sameCapacity]
      exact some
    · rw [sameCapacity]
      exact addressable
    · rw [contents, shorter, contents, more]
      exact deleted.items
    · refine iff_of_false (fun inside => ?_) fun absent => absent found
      exact Nat.lt_irrefl _ (inside _ deleted.outside)
  · obtain ⟨same, touched⟩ := deleteFrom_absent ok item self.cursor 0 (Nat.zero_add _) found
    have unchanged : (self.delete item).1 = self := same
    rw [unchanged, List.erase_of_not_mem found]
    exact ⟨ok, rfl, iff_of_true touched found⟩

end Operations

/-! ## Runs -/

inductive ArrayCall where
  | push (item : Nat) (realloc : Realloc)
  | pop
  | delete (item : Nat)
  | get (index : Int)
  | each
  | clear

inductive ArrayAnswer where
  | none
  | item (value : Nat)
  | items (values : List Nat)
  deriving DecidableEq, Repr

/-- One call: its answer, the array after it and the slots it touched. -/
def callArray (array : Source.Array) : ArrayCall → Result (ArrayAnswer × Source.Array × List Touch)
  | .push item realloc => do
    let (array, touched) ← array.push item realloc
    .ok (.none, array, touched)
  | .pop =>
    let (item, array, touched) := array.pop
    .ok (.item item, array, touched)
  | .delete item =>
    let (array, touched) := array.delete item
    .ok (.none, array, touched)
  | .get index =>
    let (item, touched) := array.get index
    .ok (.item item, array, touched)
  | .each =>
    let (items, touched) := array.each
    .ok (.items items, array, touched)
  | .clear => .ok (.none, array.clear, [])

def runArray : List ArrayCall → Source.Array → Result (List ArrayAnswer × Source.Array × List Touch)
  | [], array => .ok ([], array, [])
  | call :: rest, array => do
    let (answer, array, touched) ← callArray array call
    let (answers, array, later) ← runArray rest array
    .ok (answer :: answers, array, touched ++ later)

/-- The same call on a list. -/
def callList (items : List Nat) : ArrayCall → ArrayAnswer × List Nat
  | .push item _ => (.none, items ++ [item])
  | .pop => (.item (items.getLast?.getD null), items.dropLast)
  | .delete item => (.none, items.erase item)
  | .get index => (.item (if index < 0 then null else items.getD index.toNat null), items)
  | .each => (.items items, items)
  | .clear => (.none, [])

def runList : List ArrayCall → List Nat → List ArrayAnswer × List Nat
  | [], items => ([], items)
  | call :: rest, items =>
    let (answer, items) := callList items call
    let (answers, items) := runList rest items
    (answer :: answers, items)

/-- The call deletes nothing, or an item that is absent. -/
def DeletesNothing (items : List Nat) : ArrayCall → Prop
  | .delete item => item ∉ items
  | _ => True

/-- No call of the run finds the item it deletes. -/
def NeverDeletes : List ArrayCall → List Nat → Prop
  | [], _ => True
  | call :: rest, items => DeletesNothing items call ∧ NeverDeletes rest (callList items call).2

/-- The step lemma. -/
theorem callArray_refines {array : Source.Array} (ok : ArrayOk array) (call : ArrayCall) :
    (∃ array' touched, callArray array call =
        .ok ((callList (contents array) call).1, array', touched) ∧ ArrayOk array' ∧
      contents array' = (callList (contents array) call).2 ∧
      (InBounds touched ↔ DeletesNothing (contents array) call)) ∨
    callArray array call = .error reallocFailed := by
  cases call with
  | push item realloc =>
    rcases push_array ok item realloc with ⟨array', touched, pushed, ok', appended, inside⟩ | failed
    · refine Or.inl ⟨array', touched, ?_, ok', appended, iff_of_true inside trivial⟩
      rw [callArray, pushed]
      rfl
    · refine Or.inr ?_
      rw [callArray, failed]
      rfl
  | pop =>
    obtain ⟨item, ok', shorter, inside⟩ := pop_array ok
    refine Or.inl ⟨array.pop.2.1, array.pop.2.2, ?_, ok', shorter, iff_of_true inside trivial⟩
    rw [callArray, callList, ← item]
  | delete item =>
    obtain ⟨ok', erased, inside⟩ := delete_array ok item
    exact Or.inl ⟨_, _, rfl, ok', erased, inside⟩
  | get index =>
    obtain ⟨item, inside⟩ := get_array ok index
    refine Or.inl ⟨array, (array.get index).2, ?_, ok, rfl, iff_of_true inside trivial⟩
    rw [callArray, callList, ← item]
  | each =>
    obtain ⟨items, inside⟩ := each_array ok
    refine Or.inl ⟨array, array.each.2, ?_, ok, rfl, iff_of_true inside trivial⟩
    rw [callArray, callList, ← items]
  | clear =>
    obtain ⟨ok', none⟩ := clear_array ok
    exact Or.inl ⟨array.clear, [], rfl, ok', none, iff_of_true inBounds_nil trivial⟩

/-- The run lemma. -/
theorem runArray_refines (calls : List ArrayCall) {array : Source.Array} (ok : ArrayOk array) :
    (∃ array' touched, runArray calls array =
        .ok ((runList calls (contents array)).1, array', touched) ∧ ArrayOk array' ∧
      contents array' = (runList calls (contents array)).2 ∧
      (InBounds touched ↔ NeverDeletes calls (contents array))) ∨
    runArray calls array = .error reallocFailed := by
  induction calls generalizing array with
  | nil => exact Or.inl ⟨array, [], rfl, ok, rfl, iff_of_true inBounds_nil trivial⟩
  | cons call rest ih =>
    rcases callArray_refines ok call with ⟨next, touched, called, ok', items, inside⟩ | failed
    · rcases ih ok' with ⟨last, later, ran, ok'', items', inside'⟩ | failed
      · refine Or.inl ⟨last, touched ++ later, ?_, ok'', ?_, ?_⟩
        · rw [runArray, called, ok_bind]
          dsimp only
          rw [ran, ok_bind, items]
          rfl
        · rw [items', items]
          rfl
        · rw [inBounds_append, inside, inside', items]
          rfl
      · refine Or.inr ?_
        rw [runArray, called, ok_bind]
        dsimp only
        rw [failed]
        rfl
    · refine Or.inr ?_
      rw [runArray, failed]
      rfl

/-- From `Array_init` on, every run answers and ends like the run on a list, unless `realloc`
fails; it touches slots of the buffer only, exactly when no call deletes an item. -/
theorem registry_refines_list (capacity : Nat) (some : 1 ≤ capacity) (small : capacity < 2 ^ 61)
    (realloc : Realloc) (calls : List ArrayCall) :
    (∃ array array' touched, Source.Array.init capacity realloc = .ok array ∧
      runArray calls array = .ok ((runList calls []).1, array', touched) ∧
      contents array' = (runList calls []).2 ∧
      (InBounds touched ↔ NeverDeletes calls [])) ∨
    (Source.Array.init capacity realloc >>= runArray calls) = .error reallocFailed := by
  rcases init_array capacity realloc some small with ⟨array, started, ok, none⟩ | failed
  · rcases runArray_refines calls ok with ⟨array', touched, ran, -, items, inside⟩ | failed
    · rw [none] at ran items inside
      exact Or.inl ⟨array, array', touched, started, ran, items, inside⟩
    · refine Or.inr ?_
      rw [started, ok_bind, failed]
  · refine Or.inr ?_
    rw [failed, error_bind]

/-- A `realloc` that finds memory. -/
def granting : Realloc := ⟨true, fun _ => null⟩

/-- A second push doubles the capacity. -/
theorem second_push_doubles : ∃ array array' touched, Source.Array.init 1 granting = .ok array ∧
    runArray [.push 16 granting, .push 64 granting, .pop] array =
      .ok ([.none, .none, .item 64], array', touched) ∧
    contents array' = [16] ∧ InBounds touched := by
  rcases registry_refines_list 1 (by decide) (by decide) granting
    [.push 16 granting, .push 64 granting, .pop] with ⟨array, array', touched, started, ran, items, inside⟩ | failed
  · exact ⟨array, array', touched, started, ran, items,
      inside.mpr ⟨trivial, trivial, trivial, trivial⟩⟩
  · cases failed

/-- Two threads register in a registry for two, and one leaves: the slot behind the buffer is
read. -/
theorem deletion_reads_behind_buffer : ∃ array array' touched,
    Source.Array.init 2 granting = .ok array ∧
    runArray [.push 16 granting, .push 64 granting, .delete 16] array =
      .ok ([.none, .none, .none], array', touched) ∧ ¬ InBounds touched := by
  refine ⟨_, _, _, rfl, rfl, fun inside => ?_⟩
  exact absurd (inside ⟨2, 2⟩ (by decide)) (by decide)

end ImmixGc.Guarantees
