import Mathlib.Data.List.Nodup
import Mathlib.Logic.Relation

/-!
# Marking with a stack

A marker reads words. A word may lead to a node, which is then marked, and whose region, if it
has one, is pushed on a stack. A region that is popped is a list of words to read. The marks
double as the visited set: a node is pushed when it is marked, and only then.
-/
namespace ImmixGc.Foundation

/-- Words, nodes and regions. A word that `reaches` a node must not miss it. -/
structure WordGraph (ι ρ ω : Type) where
  words : ρ → List ω
  reaches : ω → ι → Prop
  region : ι → Option ρ

namespace WordGraph

/-- What the roots lead to, word by word. -/
inductive Reachable {ι ρ ω : Type} (graph : WordGraph ι ρ ω) (roots : List ρ) : ι → Prop where
  | root {region : ρ} {word : ω} {node : ι} (isRoot : region ∈ roots)
      (inside : word ∈ graph.words region) (reaches : graph.reaches word node) :
      Reachable graph roots node
  | follow {source node : ι} {region : ρ} {word : ω} (before : Reachable graph roots source)
      (own : graph.region source = some region) (inside : word ∈ graph.words region)
      (reaches : graph.reaches word node) : Reachable graph roots node

end WordGraph

/-- The marked nodes, newest first, what is left of the popped region, and the stack. -/
structure Marker (ι ρ ω : Type) where
  marked : List ι
  todo : List ω
  work : List ρ

namespace WordGraph
variable {ι ρ ω : Type}

/-- A word either leads to nothing that is not yet marked, or marks one node; a node it
reaches cannot be another one. -/
inductive Step (graph : WordGraph ι ρ ω) : Marker ι ρ ω → Marker ι ρ ω → Prop where
  | pop {marked : List ι} {region : ρ} {rest : List ρ} :
      Step graph ⟨marked, [], region :: rest⟩ ⟨marked, graph.words region, rest⟩
  | skip {marked : List ι} {word : ω} {todo : List ω} {work : List ρ}
      (known : ∀ node, graph.reaches word node → node ∈ marked) :
      Step graph ⟨marked, word :: todo, work⟩ ⟨marked, todo, work⟩
  | mark {marked : List ι} {word : ω} {todo : List ω} {work : List ρ} {node : ι}
      (new : node ∉ marked) (only : ∀ other, graph.reaches word other → other = node) :
      Step graph ⟨marked, word :: todo, work⟩
        ⟨node :: marked, todo, (graph.region node).toList ++ work⟩

abbrev Steps (graph : WordGraph ι ρ ω) : Marker ι ρ ω → Marker ι ρ ω → Prop :=
  Relation.ReflTransGen graph.Step

/-- The regions that marking pushed, newest first. -/
def pushed (graph : WordGraph ι ρ ω) (marked : List ι) : List ρ := marked.filterMap graph.region

/-- A region to read in the end: one of the roots, or one that was pushed. -/
def Origin (graph : WordGraph ι ρ ω) (roots : List ρ) (marked : List ι) (region : ρ) : Prop :=
  region ∈ roots ∨ region ∈ graph.pushed marked

/-- No node is marked twice, and no region lost: it waits on the stack, or each of its words
is still to be read or reaches only marked nodes. -/
structure Tricolour (graph : WordGraph ι ρ ω) (roots : List ρ) (s : Marker ι ρ ω) : Prop where
  nodup : s.marked.Nodup
  waiting : ∀ region, graph.Origin roots s.marked region →
    region ∈ s.work ∨ ∀ word ∈ graph.words region,
      word ∈ s.todo ∨ ∀ node, graph.reaches word node → node ∈ s.marked
  work : ∀ region ∈ s.work, graph.Origin roots s.marked region
  todo : ∀ word ∈ s.todo, ∃ region, graph.Origin roots s.marked region ∧ word ∈ graph.words region
  stack : s.work.length ≤ roots.length + (graph.pushed s.marked).length

section
variable {graph : WordGraph ι ρ ω} {roots : List ρ} {s s' : Marker ι ρ ω}

theorem Origin.cons {marked : List ι} {region : ρ} (node : ι)
    (source : graph.Origin roots marked region) : graph.Origin roots (node :: marked) region := by
  rcases source with root | old
  · exact Or.inl root
  · obtain ⟨origin, member, same⟩ := List.mem_filterMap.mp old
    exact Or.inr (List.mem_filterMap.mpr ⟨origin, List.mem_cons_of_mem _ member, same⟩)

theorem pushed_cons (graph : WordGraph ι ρ ω) (node : ι) (marked : List ι) :
    graph.pushed (node :: marked) = (graph.region node).toList ++ graph.pushed marked := by
  rw [pushed, List.filterMap_cons]
  cases graph.region node <;> rfl

theorem origin_cons {marked : List ι} {node : ι} {region : ρ}
    (source : graph.Origin roots (node :: marked) region) :
    region ∈ (graph.region node).toList ∨ graph.Origin roots marked region := by
  rcases source with root | new
  · exact Or.inr (Or.inl root)
  · rw [pushed_cons] at new
    rcases List.mem_append.mp new with here | old
    · exact Or.inl here
    · exact Or.inr (Or.inr old)

theorem Tricolour.start (graph : WordGraph ι ρ ω) (roots : List ρ) :
    graph.Tricolour roots ⟨[], [], roots⟩ where
  nodup := List.nodup_nil
  waiting region source := by
    rcases source with root | pushed
    · exact Or.inl root
    · cases pushed
  work _ member := Or.inl member
  todo word member := by cases member
  stack := Nat.le_add_right _ _

theorem Tricolour.step (inv : graph.Tricolour roots s) (step : graph.Step s s') :
    graph.Tricolour roots s' := by
  obtain ⟨nodup, waiting, work, todo, stack⟩ := inv
  cases step with
  | @pop marked region rest =>
    refine ⟨nodup, fun other source => ?_, fun other member => ?_, fun word member => ?_, ?_⟩
    · rcases waiting other source with waits | done
      · rcases List.mem_cons.mp waits with rfl | later
        · exact Or.inr fun word member => Or.inl member
        · exact Or.inl later
      · exact Or.inr fun word member => Or.inr ((done word member).resolve_left List.not_mem_nil)
    · exact work other (List.mem_cons_of_mem _ member)
    · exact ⟨region, work region List.mem_cons_self, member⟩
    · exact Nat.le_of_succ_le stack
  | @skip marked word rest stacked known =>
    refine ⟨nodup, fun other source => ?_, work, fun later member => ?_, stack⟩
    · rcases waiting other source with waits | done
      · exact Or.inl waits
      · refine Or.inr fun read member => ?_
        rcases done read member with left | reached
        · rcases List.mem_cons.mp left with rfl | later
          · exact Or.inr known
          · exact Or.inl later
        · exact Or.inr reached
    · exact todo later (List.mem_cons_of_mem _ member)
  | @mark marked word rest stacked node new only =>
    refine ⟨List.nodup_cons.mpr ⟨new, nodup⟩, fun other source => ?_, fun other member => ?_,
      fun later member => ?_, ?_⟩
    · rcases origin_cons source with here | old
      · exact Or.inl (List.mem_append_left _ here)
      · rcases waiting other old with waits | done
        · exact Or.inl (List.mem_append_right _ waits)
        · refine Or.inr fun read member => ?_
          rcases done read member with left | reached
          · rcases List.mem_cons.mp left with rfl | later
            · exact Or.inr fun target reaches => (only target reaches) ▸ List.mem_cons_self
            · exact Or.inl later
          · exact Or.inr fun target reaches => List.mem_cons_of_mem _ (reached target reaches)
    · rcases List.mem_append.mp member with here | old
      · refine Or.inr ?_
        rw [pushed_cons]
        exact List.mem_append_left _ here
      · exact (work other old).cons node
    · obtain ⟨region, source, within⟩ := todo later (List.mem_cons_of_mem _ member)
      exact ⟨region, source.cons node, within⟩
    · simp only [pushed_cons, List.length_append] at stack ⊢
      omega

theorem Tricolour.steps (inv : graph.Tricolour roots s) (run : graph.Steps s s') :
    graph.Tricolour roots s' := by
  induction run with
  | refl => exact inv
  | tail _ step ih => exact ih.step step

/-- When nothing waits, every word of a source was followed. -/
theorem Tricolour.complete {marked : List ι} (inv : graph.Tricolour roots ⟨marked, [], []⟩)
    {region : ρ} (source : graph.Origin roots marked region) {word : ω}
    (member : word ∈ graph.words region) {node : ι} (reaches : graph.reaches word node) :
    node ∈ marked := by
  rcases inv.waiting region source with waits | done
  · cases waits
  · rcases done word member with left | reached
    · cases left
    · exact reached node reaches

/-- When nothing waits, everything reachable is marked. -/
theorem Tricolour.reachable {marked : List ι} (inv : graph.Tricolour roots ⟨marked, [], []⟩)
    {node : ι} (reachable : graph.Reachable roots node) : node ∈ marked := by
  induction reachable with
  | root isRoot inside reaches => exact inv.complete (Or.inl isRoot) inside reaches
  | follow _ own inside reaches ih =>
    exact inv.complete (Or.inr (List.mem_filterMap.mpr ⟨_, ih, own⟩)) inside reaches

/-- Every node has a region of its own. -/
theorem Tricolour.pushed_nodup (inv : graph.Tricolour roots s)
    (own : ∀ x y region, graph.region x = some region → graph.region y = some region → x = y) :
    (graph.pushed s.marked).Nodup :=
  inv.nodup.filterMap fun x y region hx hy => own x y region hx hy

/-- Reading words trades an unmarked node for at most one region on the stack. -/
theorem Step.potential {word : ω} {rest : List ω} (step : graph.Step s s')
    (reading : s.todo = word :: rest) :
    s'.todo = rest ∧ s'.work.length + s.marked.length ≤ s.work.length + s'.marked.length := by
  cases step with
  | pop => cases reading
  | skip known =>
    obtain ⟨-, rfl⟩ := List.cons.inj reading
    exact ⟨rfl, Nat.le_refl _⟩
  | @mark marked _ _ work node new only =>
    obtain ⟨-, rfl⟩ := List.cons.inj reading
    refine ⟨rfl, ?_⟩
    have region : (graph.region node).toList.length ≤ 1 := by
      cases graph.region node with
      | none => exact Nat.zero_le 1
      | some _ => exact Nat.le_refl 1
    simp only [List.length_append, List.length_cons]
    omega

end

end WordGraph
end ImmixGc.Foundation
