import ImmixGc.Foundation.Obligations
import ImmixGc.Guarantees.FinalizerTable
import ImmixGc.Guarantees.HeapInvariants

/-!
# The account of finalizers

A registered finalizer is owed by its object, and paid by a call when the object goes. The
table holds what is owed. Each operation on the table keeps the account when the history notes
what it did.
-/
namespace ImmixGc.Guarantees
open Source Foundation

/-- Each object has at most one finalizer, which is not `NULL`. -/
structure OnePerObject (h : History) : Prop where
  one : (h.registered.map Prod.fst).Nodup
  set : ∀ r ∈ h.registered, r.2 ≠ null

/-- The live object with this serial number is still there. -/
def Alive (h : History) (serial : Nat) : Prop := ∃ a ∈ h.live, a.serial = serial

/-- A live object at this address has this finalizer. -/
def Owes (h : History) (object callback : Nat) : Prop :=
  ∃ a ∈ h.live, a.object = object ∧ (a.serial, callback) ∈ h.registered

/-- The table holds the finalizers of the live objects, those of the others were called. -/
structure Accounted (table : Hash) (h : History) : Prop where
  wellFormed : WellFormed table
  pending : ∃ map, Represents table map ∧ ∀ object callback,
    map object = some callback ↔ Owes h object callback
  settled : Settled (Alive h) h.registered h.called
  serials : (h.live.map Allocation.serial).Nodup
  numbered : ∀ a ∈ h.live, a.serial < h.serials
  known : ∀ r ∈ h.registered, r.1 < h.serials

/-- Only one live object has its header at an address. -/
def HeadersApart (h : History) : Prop :=
  ∀ a ∈ h.live, ∀ b ∈ h.live, a.object = b.object → a = b

section Accounts
variable {table table' : Hash} {h h' : History}

theorem HeadersApart.serialOf (apart : HeadersApart h) {a : Allocation} (member : a ∈ h.live) :
    h.serialOf a.object = a.serial := by
  rw [History.serialOf]
  cases found : h.live.find? fun b => b.object == a.object with
  | none =>
    have none := List.find?_eq_none.mp found a member
    exact absurd (beq_self_eq_true _) none
  | some b =>
    have here := List.find?_some found
    have same : b.object = a.object := eq_of_beq here
    rw [apart b (List.mem_of_find?_eq_some found) a member same]

/-- A key that is not mapped is not in the table. -/
theorem insert_unmapped {map : Nat → Option Nat} {key value : Nat} (wellFormed : WellFormed table)
    (represents : Represents table map) (unmapped : map key = none)
    (inserted : Hash.insert table key value = .ok table') :
    WellFormed table' ∧ Represents table' (Function.update map key (some value)) := by
  have clear : ¬ Obstructed table key := by
    rintro ⟨n, -, allocated, same, -⟩
    have full : cells table (slotAt table.mask key n) = .full _ _ :=
      cellOf_eq_full.mpr (by rw [← allocated])
    rw [same] at full
    have held := (represents key _).mpr ⟨_, slotAt_lt _ _ _, full⟩
    rw [unmapped] at held
    cases held
  rcases insert_spec key value wellFormed represents clear with ⟨table'', run, spec⟩ | failed
  · rwa [Except.ok.inj (inserted.symm.trans run)]
  · rw [failed] at inserted
    cases inserted

namespace Accounted

/-- Only these parts of the history matter. -/
theorem congr (accounted : Accounted table h) (live : h'.live = h.live)
    (serials : h'.serials = h.serials) (registered : h'.registered = h.registered)
    (called : h'.called = h.called) : Accounted table h' := by
  obtain ⟨wellFormed, ⟨map, represents, pending⟩, settled, distinct, numbered, known⟩ := accounted
  refine ⟨wellFormed, ⟨map, represents, fun object callback => ?_⟩, ?_, live ▸ distinct, ?_, ?_⟩
  · rw [pending, Owes, Owes, live, registered]
  · rw [registered, called]
    exact settled.congr fun _ _ => by rw [Alive, Alive, live]
  · rw [live, serials]
    exact numbered
  · rw [registered, serials]
    exact known

/-- An object that is new owes nothing. -/
theorem extended {g g' : Gc} (accounted : Accounted g.global.finalizers g.history)
    (extended : Extended g g') : Accounted g'.global.finalizers g'.history := by
  obtain ⟨serials, live, -, finalizers, registered, called, -⟩ := extended
  obtain ⟨wellFormed, ⟨map, represents, pending⟩, settled, distinct, numbered, known⟩ := accounted
  rw [finalizers]
  have known' : ∀ r ∈ g'.history.registered, r.1 < g'.history.serials := fun r member =>
    (known r (registered ▸ member)).trans_le serials
  rcases live with same | ⟨new, live, low, high⟩
  · refine ⟨wellFormed, ⟨map, represents, fun object callback => ?_⟩, ?_, same ▸ distinct,
      fun a member => (numbered a (same ▸ member)).trans_le serials, known'⟩
    · rw [pending, Owes, Owes, same, registered]
    · rw [registered, called]
      exact settled.congr fun _ _ => by rw [Alive, Alive, same]
  · have unowed : ∀ r ∈ g.history.registered, r.1 ≠ new.serial := fun r member =>
      Nat.ne_of_lt ((known r member).trans_le low)
    refine ⟨wellFormed, ⟨map, represents, fun object callback => ?_⟩, ?_, ?_, ?_, known'⟩
    · rw [pending, Owes, Owes, live, registered]
      constructor
      · rintro ⟨a, member, rest⟩
        exact ⟨a, List.mem_cons_of_mem _ member, rest⟩
      · rintro ⟨a, member, here, owed⟩
        rcases List.mem_cons.mp member with rfl | old
        · exact absurd rfl (unowed _ owed)
        · exact ⟨a, old, here, owed⟩
    · rw [registered, called]
      refine settled.congr fun r member => ?_
      rw [Alive, Alive, live]
      simp only [List.mem_cons, exists_eq_or_imp, or_iff_right_iff_imp]
      exact fun same => absurd same.symm (unowed r member)
    · rw [live, List.map_cons, List.nodup_cons]
      refine ⟨fun wrong => ?_, distinct⟩
      obtain ⟨a, member, same⟩ := List.mem_map.mp wrong
      have := numbered a member
      omega
    · intro a member
      rw [live] at member
      rcases List.mem_cons.mp member with rfl | old
      · exact high
      · exact (numbered a old).trans_le serials

/-- Objects go, and their finalizers are called and leave the table. -/
theorem drop (accounted : Accounted table h) (survives : Nat → Bool) (now : List (Nat × Nat))
    (wellFormed' : WellFormed table') (live : h'.live = h.live.filter fun a => survives a.object)
    (serials : h'.serials = h.serials) (registered : h'.registered = h.registered)
    (called : h'.called = h.called ++ now) (once : now.Nodup)
    (due : ∀ r, r ∈ now ↔ ∃ a ∈ h.live, survives a.object = false ∧ (a.serial, r.2) = r ∧
      r ∈ h.registered)
    {map' : Nat → Option Nat} (represents' : Represents table' map')
    (left : ∀ object callback, map' object = some callback ↔
      Owes h object callback ∧ survives object = true) : Accounted table' h' := by
  obtain ⟨-, -, settled, distinct, numbered, known⟩ := accounted
  have fewer : ∀ a ∈ h'.live, a ∈ h.live ∧ survives a.object = true := fun a member => by
    rwa [live, List.mem_filter] at member
  refine ⟨wellFormed', ⟨map', represents', fun object callback => ?_⟩, ?_, ?_, ?_, ?_⟩
  · rw [left, Owes, Owes, live, registered]
    simp only [List.mem_filter]
    constructor
    · rintro ⟨⟨a, member, rfl, owed⟩, stays⟩
      exact ⟨a, ⟨member, stays⟩, rfl, owed⟩
    · rintro ⟨a, ⟨member, stays⟩, rfl, owed⟩
      exact ⟨⟨a, member, rfl, owed⟩, stays⟩
  · rw [registered, called]
    refine settled.pay (fun serial => ?_) once fun r => ?_
    · rintro ⟨a, member, same⟩
      exact ⟨a, (fewer a member).1, same⟩
    · rw [due]
      constructor
      · rintro ⟨a, member, goes, same, owed⟩
        have serial : a.serial = r.1 := congrArg Prod.fst same
        refine ⟨owed, ⟨a, member, serial⟩, ?_⟩
        rintro ⟨b, stays, other⟩
        have same := List.inj_on_of_nodup_map distinct (fewer b stays).1 member
          (other.trans serial.symm)
        rw [same] at stays
        rw [(fewer a stays).2] at goes
        cases goes
      · rintro ⟨owed, ⟨a, member, serial⟩, gone⟩
        refine ⟨a, member, Bool.eq_false_iff.mpr fun stays => gone ⟨a, ?_, serial⟩, ?_, owed⟩
        · rw [live, List.mem_filter]
          exact ⟨member, stays⟩
        · rw [serial]
  · rw [live]
    exact distinct.sublist (List.filter_sublist.map _)
  · intro a member
    rw [serials]
    exact numbered a (fewer a member).1
  · rw [registered, serials]
    exact known

/-- An object gets its finalizer. -/
theorem register (accounted : Accounted table h) (apart : HeadersApart h) {a : Allocation}
    (member : a ∈ h.live) {callback : Nat} (one : OnePerObject (h.register a.object callback))
    (inserted : Hash.insert table a.object callback = .ok table') :
    Accounted table' (h.register a.object callback) := by
  obtain ⟨wellFormed, ⟨map, represents, pending⟩, settled, distinct, numbered, known⟩ := accounted
  have registered : (h.register a.object callback).registered =
      h.registered ++ [(a.serial, callback)] := by
    rw [← apart.serialOf member]
    rfl
  have unowed : ∀ r ∈ h.registered, r.1 ≠ a.serial := by
    have once := one.one
    rw [registered, List.map_append, List.nodup_append] at once
    exact fun r owed => once.2.2 _ (List.mem_map_of_mem owed) _ List.mem_cons_self
  have unmapped : map a.object = none := by
    rw [Option.eq_none_iff_forall_ne_some]
    intro other mapped
    obtain ⟨b, member', here, owed⟩ := (pending _ _).mp mapped
    exact unowed _ owed (congrArg Allocation.serial (apart b member' a member here))
  obtain ⟨wellFormed', represents'⟩ := insert_unmapped wellFormed represents unmapped inserted
  refine ⟨wellFormed', ⟨_, represents', fun object value => ?_⟩, ?_, distinct, numbered, ?_⟩
  · have owes : Owes (h.register a.object callback) object value ↔
        Owes h object value ∨ object = a.object ∧ value = callback := by
      rw [Owes, registered]
      simp only [List.mem_append, List.mem_singleton, Prod.mk.injEq]
      constructor
      · rintro ⟨b, member', rfl, owed | ⟨serial, rfl⟩⟩
        · exact Or.inl ⟨b, member', rfl, owed⟩
        · rw [List.inj_on_of_nodup_map distinct member' member serial]
          exact Or.inr ⟨rfl, rfl⟩
      · rintro (⟨b, member', here, owed⟩ | ⟨rfl, rfl⟩)
        · exact ⟨b, member', here, Or.inl owed⟩
        · exact ⟨a, member, rfl, Or.inr ⟨rfl, rfl⟩⟩
    rw [owes, ← pending]
    by_cases here : object = a.object
    · subst here
      rw [Function.update_self, unmapped, Option.some.injEq]
      simp [eq_comm]
    · rw [Function.update_of_ne here]
      simp [here]
  · rw [registered]
    exact settled.owe ⟨a, member, rfl⟩
  · intro r owed
    rw [registered] at owed
    rcases List.mem_append.mp owed with old | new
    · exact known r old
    · rw [List.mem_singleton.mp new]
      exact numbered a member

/-- What the deletion of a key finds and leaves. -/
theorem deleted (accounted : Accounted table h) (one : OnePerObject h) {object callback : Nat}
    (success : Hash.delete table object = .ok (callback, table')) :
    (∀ value, Owes h object value ↔ callback ≠ null ∧ value = callback) ∧ WellFormed table' ∧
      ∃ map', Represents table' map' ∧
        ∀ o value, map' o = some value ↔ Owes h o value ∧ o ≠ object := by
  obtain ⟨wellFormed, ⟨map, represents, pending⟩, -⟩ := accounted
  have set : ∀ value, map object = some value → value ≠ null := by
    intro value mapped
    obtain ⟨a, -, -, owed⟩ := (pending _ _).mp mapped
    exact one.set _ owed
  rcases delete_spec object wellFormed represents with ⟨table'', ran, wellFormed', represents'⟩ | failed
  · rw [success, Except.ok.injEq, Prod.mk.injEq] at ran
    obtain ⟨rfl, rfl⟩ := ran
    refine ⟨fun value => ?_, wellFormed', _, represents', fun o value => ?_⟩
    · rw [← pending]
      cases mapped : map object with
      | none => simp
      | some found =>
        have some := set found mapped
        simp [some, eq_comm]
    · rw [← pending]
      by_cases here : o = object
      · subst here
        simp
      · simp [here]
  · rw [failed] at success
    cases success

/-- Deleting an object without a finalizer. -/
theorem missed (accounted : Accounted table h) (one : OnePerObject h) {object : Nat}
    (success : Hash.delete table object = .ok (null, table')) : Accounted table' h := by
  obtain ⟨found, wellFormed', map', represents', left⟩ := accounted.deleted one success
  obtain ⟨-, -, settled, distinct, numbered, known⟩ := accounted
  refine ⟨wellFormed', ⟨map', represents', fun o value => ?_⟩, settled, distinct, numbered, known⟩
  rw [left, and_iff_left_iff_imp]
  rintro owes rfl
  exact ((found value).mp owes).1 rfl

/-- `GC_free` of an object of the large heap: its finalizer, if any, is called. -/
theorem release (accounted : Accounted table h) (apart : HeadersApart h) (one : OnePerObject h)
    {object callback : Nat} (success : Hash.delete table object = .ok (callback, table')) :
    Accounted table' ((if callback ≠ null then h.call object callback else h).freed object) := by
  obtain ⟨found, wellFormed', map', represents', left⟩ := accounted.deleted one success
  have survives : ∀ o, (o != object) = false ↔ o = object := fun o => by simp
  have due : ∀ r, r ∈ (if callback ≠ null then [(h.serialOf object, callback)] else []) ↔
      ∃ a ∈ h.live, (a.object != object) = false ∧ (a.serial, r.2) = r ∧ r ∈ h.registered := by
    intro r
    have owes : (∃ a ∈ h.live, (a.object != object) = false ∧ (a.serial, r.2) = r ∧
        r ∈ h.registered) ↔ Owes h object r.2 ∧ (h.serialOf object, r.2) = r := by
      simp only [survives]
      constructor
      · rintro ⟨a, member, rfl, same, owed⟩
        rw [apart.serialOf member]
        exact ⟨⟨a, member, rfl, same ▸ owed⟩, same⟩
      · rintro ⟨⟨a, member, rfl, owed⟩, same⟩
        rw [apart.serialOf member] at same
        exact ⟨a, member, rfl, same, same ▸ owed⟩
    rw [owes, found]
    split
    · next some =>
      rw [List.mem_singleton]
      constructor
      · rintro rfl
        exact ⟨⟨some, rfl⟩, rfl⟩
      · rintro ⟨⟨-, value⟩, same⟩
        rw [← same, ← value]
    · next none => simp [none]
  refine accounted.drop (· != object) _ wellFormed' ?_ ?_ ?_ ?_ ?_ due represents' fun o value => ?_
  · split <;> rfl
  · split <;> rfl
  · split <;> rfl
  · split
    · rfl
    · exact (List.append_nil _).symm
  · split
    · exact List.nodup_singleton _
    · exact List.nodup_nil
  · rw [left, bne_iff_ne]

/-- `GC_realloc` moves the finalizer of an object to the object that is new. -/
theorem transfer (accounted : Accounted table h) (apart : HeadersApart h) (one : OnePerObject h)
    {object callback : Nat} {new : Allocation} (member : new ∈ h.live)
    (fresh : ∀ r ∈ h.registered, r.1 ≠ new.serial) {middle : Hash}
    (deleting : Hash.delete table object = .ok (callback, middle)) (some : callback ≠ null)
    (inserted : Hash.insert middle new.object callback = .ok table') :
    Accounted table' (h.transfer object new.object) := by
  obtain ⟨found, wellFormed', map', represents', left⟩ := accounted.deleted one deleting
  obtain ⟨-, -, settled, distinct, numbered, known⟩ := accounted
  obtain ⟨a, member', rfl, owed⟩ := (found callback).mpr ⟨some, rfl⟩
  have registered : (h.transfer a.object new.object).registered =
      h.registered.map fun r => if r.1 = a.serial then (new.serial, r.2) else r := by
    rw [← apart.serialOf member, ← apart.serialOf member']
    rfl
  have unowed : ∀ value, ¬ Owes h new.object value := by
    rintro value ⟨b, member'', here, owed⟩
    exact fresh _ owed (congrArg Allocation.serial (apart b member'' new member here))
  have unmapped : map' new.object = none := by
    rw [Option.eq_none_iff_forall_ne_some]
    exact fun value mapped => unowed value ((left _ _).mp mapped).1
  have different : new.object ≠ a.object := fun same =>
    unowed callback ⟨a, member', same.symm, owed⟩
  obtain ⟨wellFormed'', represents''⟩ := insert_unmapped wellFormed' represents' unmapped inserted
  refine ⟨wellFormed'', ⟨_, represents'', fun o value => ?_⟩, ?_, distinct, numbered, ?_⟩
  · have owes : Owes (h.transfer a.object new.object) o value ↔
        (o = new.object ∧ value = callback) ∨ Owes h o value ∧ o ≠ a.object := by
      rw [Owes, registered]
      constructor
      · rintro ⟨b, live, rfl, note⟩
        obtain ⟨r, owed', same⟩ := List.mem_map.mp note
        split at same
        · next giver =>
          obtain ⟨serial, rfl⟩ := Prod.mk.inj same
          have value := (found r.2).mp ⟨a, member', rfl, giver ▸ owed'⟩
          rw [List.inj_on_of_nodup_map distinct live member serial.symm]
          exact Or.inl ⟨rfl, value.2⟩
        · next other =>
          subst same
          refine Or.inr ⟨⟨b, live, rfl, owed'⟩, fun here => other ?_⟩
          rw [apart b live a member' here]
      · rintro (⟨rfl, rfl⟩ | ⟨⟨b, live, rfl, owed'⟩, other⟩)
        · exact ⟨new, member, rfl, List.mem_map.mpr ⟨_, owed, if_pos rfl⟩⟩
        · refine ⟨b, live, rfl, List.mem_map.mpr ⟨_, owed', if_neg fun serial => other ?_⟩⟩
          rw [List.inj_on_of_nodup_map distinct live member' serial]
    rw [owes, ← left]
    by_cases here : o = new.object
    · subst here
      rw [Function.update_self, unmapped, Option.some.injEq]
      simp [eq_comm]
    · rw [Function.update_of_ne here]
      simp [here]
  · rw [registered]
    exact settled.handOver ⟨a, member', rfl⟩ ⟨new, member, rfl⟩
  · intro r owed'
    rw [registered] at owed'
    obtain ⟨before, owed'', rfl⟩ := List.mem_map.mp owed'
    split
    · exact numbered new member
    · exact known before owed''

end Accounted
end Accounts

end ImmixGc.Guarantees
