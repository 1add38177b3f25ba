import ImmixGc.Guarantees.Probing

/-!
# The finalizer table as a finite map

A run is a sequence of calls from `GC_Hash_create` on. Its answers are those of a finite
map as long as no call inserts a mapped key whose slot stands behind a tombstone: that
insertion recycles the tombstone and leaves the old binding behind.
-/
namespace ImmixGc.Guarantees
open Source Foundation

/-- The calls of a client. The callback of `deleteIf` works on a state `σ` of its own. -/
inductive TableCall (σ : Type) where
  | insert (key value : Nat)
  | delete (key : Nat)
  | search (key : Nat)
  | deleteIf (callback : Nat → Nat → σ → Bool × σ)

inductive TableAnswer where
  | done
  | value (value : Nat)
  | called (calls : List (Nat × Nat × Bool))
  deriving DecidableEq

section Runs
variable {σ : Type}

/-- The callback as the table calls it, with a record of the calls. -/
def recording (callback : Nat → Nat → σ → Bool × σ) (key value : Nat)
    (state : σ × List (Nat × Nat × Bool)) : Result (Bool × (σ × List (Nat × Nat × Bool))) :=
  let answer := callback key value state.1
  .ok (answer.1, (answer.2, state.2 ++ [(key, value, answer.1)]))

def callTable (call : TableCall σ) (table : Hash) (state : σ) : Result (TableAnswer × Hash × σ) :=
  match call with
  | .insert key value => do
    let table ← Hash.insert table key value
    .ok (.done, table, state)
  | .delete key => do
    let (value, table) ← Hash.delete table key
    .ok (.value value, table, state)
  | .search key => do
    let value ← Hash.search table key
    .ok (.value value, table, state)
  | .deleteIf callback => do
    let (table, state, calls) ← Hash.deleteIf (recording callback) table (state, [])
    .ok (.called calls, table, state)

def runTable : List (TableCall σ) → Hash → σ → Result (List TableAnswer × Hash × σ)
  | [], table, state => .ok ([], table, state)
  | call :: calls, table, state => do
    let (answer, table, state) ← callTable call table state
    let (answers, table, state) ← runTable calls table state
    .ok (answer :: answers, table, state)

/-- What a finite map answers. `deleteIf` may visit the bindings in any order, each once,
and removes those its callback says to remove. -/
def MapCall (call : TableCall σ) (map : Nat → Option Nat) (state : σ) (answer : TableAnswer)
    (map' : Nat → Option Nat) (state' : σ) : Prop :=
  match call with
  | .insert key value => answer = .done ∧ map' = Function.update map key (some value) ∧ state' = state
  | .delete key => answer = .value ((map key).getD null) ∧ map' = Function.update map key none ∧
      state' = state
  | .search key => answer = .value ((map key).getD null) ∧ map' = map ∧ state' = state
  | .deleteIf callback => ∃ calls, answer = .called calls ∧
      Calls (fun key value state => .ok (callback key value state)) state calls state' ∧
      (calls.map Prod.fst).Nodup ∧
      (∀ key value, map key = some value ↔ ∃ removed, (key, value, removed) ∈ calls) ∧
      (∀ key value, map' key = some value ↔ map key = some value ∧ (key, value, true) ∉ calls)

def MapRun : List (TableCall σ) → (Nat → Option Nat) → σ → List TableAnswer →
    (Nat → Option Nat) → σ → Prop
  | [], map, state, answers, map', state' => answers = [] ∧ map' = map ∧ state' = state
  | call :: calls, map, state, answers, map', state' =>
    ∃ answer rest middle between, answers = answer :: rest ∧
      MapCall call map state answer middle between ∧ MapRun calls middle between rest map' state'

/-- The call does not insert a mapped key behind a tombstone. -/
def Unobstructed (call : TableCall σ) (table : Hash) : Prop :=
  match call with
  | .insert key _ => ¬ Obstructed table key
  | _ => True

/-- Every call of the run is unobstructed in the table it is made on. -/
def NeverObstructed : List (TableCall σ) → Hash → σ → Prop
  | [], _, _ => True
  | call :: calls, table, state => Unobstructed call table ∧
    match callTable call table state with
    | .ok (_, table, state) => NeverObstructed calls table state
    | .error _ => True

theorem calls_recording {callback : Nat → Nat → σ → Bool × σ}
    {before after : σ × List (Nat × Nat × Bool)} {calls : List (Nat × Nat × Bool)}
    (called : Calls (recording callback) before calls after) :
    Calls (fun key value state => .ok (callback key value state)) before.1 calls after.1 ∧
      after.2 = before.2 ++ calls := by
  induction called with
  | none state => exact ⟨.none _, (List.append_nil _).symm⟩
  | call answer others ih =>
    simp only [recording, Except.ok.injEq, Prod.mk.injEq] at answer
    obtain ⟨rfl, rfl⟩ := answer
    exact ⟨.call rfl ih.1, by rw [ih.2]; simp⟩

theorem afterCalls_some {calls : List (Nat × Nat × Bool)} {map : Nat → Option Nat}
    (own : ∀ key value removed, (key, value, removed) ∈ calls → map key = some value)
    (once : (calls.map Prod.fst).Nodup) (key value : Nat) :
    afterCalls map calls key = some value ↔ map key = some value ∧ (key, value, true) ∉ calls := by
  induction calls generalizing map with
  | nil => simp [afterCalls]
  | cons call calls ih =>
    obtain ⟨k, v, removed⟩ := call
    simp only [List.map_cons, List.nodup_cons] at once
    have apart : ∀ key value removed, (key, value, removed) ∈ calls → key ≠ k := by
      rintro key value removed member rfl
      exact once.1 (List.mem_map.mpr ⟨_, member, rfl⟩)
    have mapped := own k v removed (by simp)
    cases removed with
    | false =>
      have := ih (fun key value r member => own key value r (by simp [member])) once.2
      simpa [afterCalls] using this
    | true =>
      have := @ih (Function.update map k none) (fun key value r member => by
        rw [Function.update_of_ne (apart key value r member)]
        exact own key value r (by simp [member])) once.2
      rw [afterCalls, List.foldl_cons]
      refine this.trans ?_
      by_cases same : key = k
      · subst same
        simp only [Function.update_self, List.mem_cons, Prod.mk.injEq, true_and, and_true]
        constructor
        · rintro ⟨impossible, -⟩
          cases impossible
        · rintro ⟨held, notRemoved⟩
          rw [mapped, Option.some.injEq] at held
          exact absurd (Or.inl held.symm) notRemoved
      · simp [same]

/-- The calls over a whole table, one for each binding. -/
theorem calls_cover {table : Hash} {map : Nat → Option Nat} {calls : List (Nat × Nat × Bool)}
    (wellFormed : WellFormed table) (represents : Represents table map)
    (visited : calls.map (fun call => (call.1, call.2.1)) =
      heldFrom (cells table) 0 (table.mask + 1)) :
    (calls.map Prod.fst).Nodup ∧
      ∀ key value, map key = some value ↔ ∃ removed, (key, value, removed) ∈ calls := by
  refine ⟨?_, fun key value => ?_⟩
  · have once := nodup_heldFrom 0 (table.mask + 1) (by omega) wellFormed.consistent.unique
    rw [← visited, List.map_map] at once
    exact once
  · have member : (key, value) ∈ heldFrom (cells table) 0 (table.mask + 1) ↔
        map key = some value := by
      rw [mem_heldFrom, represents]
      simp [Holds]
    rw [← member, ← visited, List.mem_map]
    constructor
    · rintro ⟨⟨k, v, removed⟩, hcall, pair⟩
      simp only [Prod.mk.injEq] at pair
      obtain ⟨rfl, rfl⟩ := pair
      exact ⟨removed, hcall⟩
    · rintro ⟨removed, hcall⟩
      exact ⟨_, hcall, rfl⟩

/-- One call of the table answers like the map. -/
theorem callTable_refines {table : Hash} {map : Nat → Option Nat} (call : TableCall σ) (state : σ)
    (wellFormed : WellFormed table) (represents : Represents table map)
    (clear : Unobstructed call table) :
    (∃ answer table' state' map', callTable call table state = .ok (answer, table', state') ∧
      MapCall call map state answer map' state' ∧ WellFormed table' ∧ Represents table' map') ∨
    callTable call table state = .error callocFailed := by
  cases call with
  | insert key value =>
    rcases insert_spec key value wellFormed represents clear with ⟨table', run, wf, rep⟩ | failed
    · exact Or.inl ⟨.done, table', state, _, by simp only [callTable, run]; rfl, ⟨rfl, rfl, rfl⟩,
        wf, rep⟩
    · exact Or.inr (by simp only [callTable, failed]; rfl)
  | delete key =>
    rcases delete_spec key wellFormed represents with ⟨table', run, wf, rep⟩ | failed
    · exact Or.inl ⟨_, table', state, _, by simp only [callTable, run]; rfl, ⟨rfl, rfl, rfl⟩,
        wf, rep⟩
    · exact Or.inr (by simp only [callTable, failed]; rfl)
  | search key =>
    have run := search_spec wellFormed represents key
    exact Or.inl ⟨_, table, state, map, by simp only [callTable, run]; rfl, ⟨rfl, rfl, rfl⟩,
      wellFormed, represents⟩
  | deleteIf callback =>
    obtain ⟨⟨swept, final⟩, looped⟩ := deleteIfLoop_total (recording callback)
      (fun key value state => ⟨_, rfl⟩) (table.mask + 1) 0 table (state, [])
    obtain ⟨calls, called, visited, wf, rep⟩ := deleteIfLoop_spec (recording callback)
      (table.mask + 1) 0 table map (state, []) wellFormed represents (by omega) looped
    obtain ⟨called, recorded⟩ := calls_recording called
    simp only [callTable, Hash.deleteIf, looped]
    rcases clearTombstones_spec wf rep with ⟨table', cleared, wf', rep'⟩ | failed
    · left
      obtain ⟨once, covers⟩ := calls_cover wellFormed represents visited
      refine ⟨.called calls, table', final.1, afterCalls map calls, ?_, ⟨calls, rfl, called, once,
        covers, ?_⟩, wf', rep'⟩
      · rw [show final = (final.1, calls) by rw [show calls = final.2 by simpa using recorded.symm]]
        simp only [bind, Except.bind, cleared]
      · exact afterCalls_some (fun key value removed member => (covers key value).mpr
          ⟨removed, member⟩) once
    · right
      simp only [bind, Except.bind, failed]

/-- The run lemma: from any table that stands for a map. -/
theorem runTable_refines (calls : List (TableCall σ)) {table : Hash} {map : Nat → Option Nat}
    (state : σ) (wellFormed : WellFormed table) (represents : Represents table map)
    (clear : NeverObstructed calls table state) :
    (∃ answers table' state' map', runTable calls table state = .ok (answers, table', state') ∧
      MapRun calls map state answers map' state' ∧ WellFormed table' ∧ Represents table' map') ∨
    runTable calls table state = .error callocFailed := by
  induction calls generalizing table map state with
  | nil => exact Or.inl ⟨[], table, state, map, rfl, ⟨rfl, rfl, rfl⟩, wellFormed, represents⟩
  | cons call calls ih =>
    obtain ⟨clearNow, clearLater⟩ := clear
    rcases callTable_refines call state wellFormed represents clearNow with
      ⟨answer, table', state', map', called, answered, wf, rep⟩ | failed
    · rw [called] at clearLater
      rcases ih state' wf rep clearLater with
        ⟨answers, table'', state'', map'', run, answeredRest, wf', rep'⟩ | failed
      · refine Or.inl ⟨answer :: answers, table'', state'', map'', ?_,
          ⟨answer, answers, map', state', rfl, answered, answeredRest⟩, wf', rep'⟩
        simp only [runTable, called, bind, Except.bind, run]
      · right
        simp only [runTable, called, bind, Except.bind, failed]
    · right
      simp only [runTable, failed, bind, Except.bind]

/-- A run of the finalizer table whose insertions are unobstructed gives, call by call,
the answers of a finite map. It always ends, unless `calloc` fails. -/
theorem finalizerTable_refines_map (capacity : Nat) (calls : List (TableCall σ)) (state : σ)
    (clear : ∀ table, Hash.create capacity = .ok table → NeverObstructed calls table state) :
    (∃ answers table' state' map', (do
        let table ← Hash.create capacity
        runTable calls table state) = .ok (answers, table', state') ∧
      MapRun calls (fun _ => none) state answers map' state' ∧ Represents table' map') ∨
    (do
      let table ← Hash.create capacity
      runTable calls table state) = .error callocFailed := by
  rcases create_spec capacity with ⟨table, created, wellFormed, represents⟩ | failed
  · rw [created]
    rcases runTable_refines calls state wellFormed represents (clear table created) with
      ⟨answers, table', state', map', run, answered, -, rep⟩ | failed
    · exact Or.inl ⟨answers, table', state', map', run, answered, rep⟩
    · exact Or.inr failed
  · exact Or.inr (by rw [failed]; rfl)

end Runs

instance (table : Hash) (key : Nat) : Decidable (Obstructed table key) :=
  inferInstanceAs (Decidable (∃ n ≤ _, _))

instance {σ : Type} (call : TableCall σ) (table : Hash) : Decidable (Unobstructed call table) :=
  match call with
  | .insert key _ => inferInstanceAs (Decidable (¬ Obstructed table key))
  | .delete _ => isTrue trivial
  | .search _ => isTrue trivial
  | .deleteIf _ => isTrue trivial

instance neverObstructedDecidable {σ : Type} : (calls : List (TableCall σ)) → (table : Hash) →
    (state : σ) → Decidable (NeverObstructed calls table state)
  | [], _, _ => isTrue trivial
  | call :: calls, table, state =>
    letI : Decidable (match callTable call table state with
        | .ok (_, table, state) => NeverObstructed calls table state
        | .error _ => True) :=
      match callTable call table state with
      | .ok (_, table, state) => neverObstructedDecidable calls table state
      | .error _ => isTrue trivial
    inferInstanceAs (Decidable (Unobstructed call table ∧ _))

/-- Keys 16, 64 and 144 share their first slot; no insertion here meets its own key behind
a tombstone. -/
def collidingCalls : List (TableCall Unit) :=
  [.insert 16 1, .insert 64 2, .delete 16, .search 64, .insert 144 3, .delete 64, .search 64]

theorem collidingCalls_refine_map :
    ∃ answers table' state' map', (do
        let table ← Hash.create 0
        runTable collidingCalls table ()) = .ok (answers, table', state') ∧
      MapRun collidingCalls (fun _ => none) () answers map' state' ∧ Represents table' map' := by
  have start : Hash.create 0 = .ok ⟨fun _ => Entry.zero, 7, 0, 0⟩ := by rfl
  refine (finalizerTable_refines_map 0 collidingCalls () ?_).resolve_right ?_
  · intro table created
    rw [start, Except.ok.injEq] at created
    subst created
    decide +kernel
  · intro failed
    have ends : (do
        let table ← Hash.create 0
        runTable collidingCalls table ()).toBool = true := by rfl
    rw [failed] at ends
    cases ends

/-- `64` is registered behind `16`, `16` is deleted, `64` is registered again and takes the
tombstone of `16`; deleting `64` and recycling its slot brings back the first value. -/
def staleCalls : List (TableCall Unit) :=
  [.insert 16 1, .insert 64 2, .delete 16, .insert 64 3, .delete 64, .insert 144 4, .search 64]

theorem deleted_key_comes_back :
    ((do
      let table ← Hash.create 0
      runTable staleCalls table ()) : Result _).map (fun result => result.1) =
      .ok [.done, .done, .value 1, .done, .value 3, .done, .value 2] ∧
    ∀ answers map' state', MapRun staleCalls (fun _ => none) () answers map' state' →
      answers = [.done, .done, .value 1, .done, .value 3, .done, .value null] := by
  constructor
  · rfl
  · rintro answers map' state' ⟨_, _, _, _, rfl, ⟨rfl, rfl, rfl⟩, _, _, _, _, rfl, ⟨rfl, rfl, rfl⟩,
      _, _, _, _, rfl, ⟨rfl, rfl, rfl⟩, _, _, _, _, rfl, ⟨rfl, rfl, rfl⟩, _, _, _, _, rfl, ⟨rfl, rfl, rfl⟩,
      _, _, _, _, rfl, ⟨rfl, rfl, rfl⟩, _, _, _, _, rfl, ⟨rfl, rfl, rfl⟩, rfl, -, -⟩
    simp

end ImmixGc.Guarantees
