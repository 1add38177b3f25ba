import Mathlib.Data.List.Nodup

/-!
# Obligations that end with their owner

Owners come and go. What an owner owes is paid when it goes, neither before nor twice. An owner
may hand over what it owes to another one.
-/
namespace ImmixGc.Foundation

variable {ι β : Type}

/-- What living owners owe is unpaid, and what the others owed is paid. -/
structure Settled (alive : ι → Prop) (owed paid : List (ι × β)) : Prop where
  paid_iff : ∀ note ∈ owed, note ∈ paid ↔ ¬ alive note.1
  once : paid.Nodup
  own : ∀ note ∈ paid, note ∈ owed

namespace Settled
variable {alive alive' : ι → Prop} {owed paid now : List (ι × β)}

theorem nothing (alive : ι → Prop) : Settled alive ([] : List (ι × β)) [] :=
  ⟨fun _ member => absurd member List.not_mem_nil, List.nodup_nil,
    fun _ member => absurd member List.not_mem_nil⟩

/-- Owners that owe nothing come and go. -/
theorem congr (settled : Settled alive owed paid)
    (same : ∀ note ∈ owed, alive' note.1 ↔ alive note.1) : Settled alive' owed paid := by
  refine ⟨fun note member => ?_, settled.once, settled.own⟩
  rw [settled.paid_iff note member, same note member]

theorem owe (settled : Settled alive owed paid) {note : ι × β} (owner : alive note.1) :
    Settled alive (owed ++ [note]) paid := by
  have unpaid : note ∉ paid := fun wrong =>
    (settled.paid_iff note (settled.own note wrong)).mp wrong owner
  refine ⟨fun other member => ?_, settled.once, fun other member =>
    List.mem_append_left _ (settled.own other member)⟩
  rcases List.mem_append.mp member with old | new
  · exact settled.paid_iff other old
  · rw [List.mem_singleton.mp new]
    exact ⟨fun wrong => absurd wrong unpaid, fun wrong => absurd owner wrong⟩

/-- Some owners go, and what they owed is paid now. -/
theorem pay (settled : Settled alive owed paid) (fewer : ∀ i, alive' i → alive i)
    (once : now.Nodup) (due : ∀ note, note ∈ now ↔ note ∈ owed ∧ alive note.1 ∧ ¬ alive' note.1) :
    Settled alive' owed (paid ++ now) := by
  refine ⟨fun note member => ?_, ?_, fun note member => ?_⟩
  · rw [List.mem_append, settled.paid_iff note member, due]
    constructor
    · rintro (gone | ⟨-, -, gone⟩)
      · exact fun wrong => gone (fewer _ wrong)
      · exact gone
    · intro gone
      by_cases before : alive note.1
      · exact Or.inr ⟨member, before, gone⟩
      · exact Or.inl before
  · refine List.nodup_append.mpr ⟨settled.once, once, fun old paid new payed same => ?_⟩
    subst same
    obtain ⟨member, before, -⟩ := (due old).mp payed
    exact (settled.paid_iff old member).mp paid before
  · rcases List.mem_append.mp member with old | new
    · exact settled.own note old
    · exact ((due note).mp new).1

/-- A living owner hands over what it owes to a living one. -/
theorem handOver [DecidableEq ι] (settled : Settled alive owed paid) {old new : ι}
    (giver : alive old) (taker : alive new) :
    Settled alive (owed.map fun note => if note.1 = old then (new, note.2) else note) paid := by
  have unpaid : ∀ note ∈ paid, ¬ alive note.1 := fun note member =>
    (settled.paid_iff note (settled.own note member)).mp member
  refine ⟨fun note member => ?_, settled.once, fun note member => ?_⟩
  · obtain ⟨before, owed, rfl⟩ := List.mem_map.mp member
    split
    · exact ⟨fun wrong => absurd taker (unpaid _ wrong), fun wrong => absurd taker wrong⟩
    · exact settled.paid_iff before owed
  · refine List.mem_map.mpr ⟨note, settled.own note member, if_neg fun same => ?_⟩
    exact unpaid note member (same ▸ giver)

end Settled
end ImmixGc.Foundation
