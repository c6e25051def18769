import Mathlib

/-!
# Linked lists

The doubly linked list of `container/list`.
-/

namespace HelixCluster

open List

/-- An element of a linked list. -/
structure Element (V : Type) where
  id : ℕ
  value : V
  deriving DecidableEq

/-- The element with the new value, if it is the one that is assigned to. -/
def Element.assign {V : Type} (id : ℕ) (v : V) (e : Element V) : Element V := if e.id = id then ⟨id, v⟩ else e

theorem Element.id_assign {V : Type} (id : ℕ) (v : V) (e : Element V) : (e.assign id v).id = e.id := by
  unfold assign
  split
  · next h => exact h.symm
  · rfl

/-- A linked list: the elements from the front to the back, and the identity of the next one. -/
structure LinkedList (V : Type) where
  elements : List (Element V)
  next : ℕ
  distinct : (elements.map Element.id).Nodup
  fresh : ∀ e ∈ elements, e.id < next

namespace LinkedList

variable {V : Type}

/-- `New`. -/
def empty : LinkedList V := ⟨[], 0, nodup_nil, by simp⟩

def back (l : LinkedList V) : Option (Element V) := l.elements.getLast?

/-- `PushFront`, which returns the new element. -/
def pushFront (l : LinkedList V) (v : V) : LinkedList V :=
  ⟨⟨l.next, v⟩ :: l.elements, l.next + 1,
    nodup_cons.mpr ⟨fun hmem => by
      obtain ⟨e, he, hid⟩ := mem_map.mp hmem
      exact absurd hid (l.fresh e he).ne, l.distinct⟩,
    forall_mem_cons.mpr ⟨Nat.lt_succ_self _, fun e he => Nat.lt_succ_of_lt (l.fresh e he)⟩⟩

def remove (l : LinkedList V) (id : ℕ) : LinkedList V :=
  ⟨l.elements.filter (·.id ≠ id), l.next, (filter_sublist.map Element.id).nodup l.distinct,
    fun e he => l.fresh e (mem_of_mem_filter he)⟩

def moveToFront (l : LinkedList V) (id : ℕ) : LinkedList V :=
  ⟨l.elements.filter (·.id = id) ++ l.elements.filter fun e => !decide (e.id = id), l.next,
    ((filter_append_perm (·.id = id) l.elements).map Element.id).nodup_iff.mpr l.distinct,
    fun e he => l.fresh e ((filter_append_perm (·.id = id) l.elements).mem_iff.mp he)⟩

theorem map_id_assign (es : List (Element V)) (id : ℕ) (v : V) :
    (es.map (Element.assign id v)).map Element.id = es.map Element.id := by
  rw [map_map]
  exact map_congr_left fun e _ => Element.id_assign id v e

/-- The assignment `e.Value = v`. -/
def setValue (l : LinkedList V) (id : ℕ) (v : V) : LinkedList V :=
  ⟨l.elements.map (Element.assign id v), l.next, (map_id_assign l.elements id v).symm ▸ l.distinct,
    forall_mem_map.mpr fun e he => (Element.id_assign id v e).symm ▸ l.fresh e he⟩

variable {l : LinkedList V} {e : Element V} {id : ℕ} {v : V}

theorem eq_of_id {d : Element V} (he : e ∈ l.elements) (hd : d ∈ l.elements) (h : e.id = d.id) : e = d :=
  inj_on_of_nodup_map l.distinct he hd h

theorem mem_pushFront : e ∈ (l.pushFront v).elements ↔ e = ⟨l.next, v⟩ ∨ e ∈ l.elements := mem_cons

theorem mem_remove : e ∈ (l.remove id).elements ↔ e ∈ l.elements ∧ e.id ≠ id := by
  simp [remove]

theorem mem_moveToFront : e ∈ (l.moveToFront id).elements ↔ e ∈ l.elements :=
  (filter_append_perm (·.id = id) l.elements).mem_iff

theorem setValue_of_mem (h : ⟨id, v⟩ ∈ l.elements) : l.setValue id v = l := by
  have hsame : l.elements.map (Element.assign id v) = l.elements := by
    refine map_congr_left (fun e he => ?_) |>.trans (map_id _)
    unfold Element.assign
    split
    · next hid => exact (eq_of_id he h hid).symm
    · rfl
  cases l
  simp only [setValue] at hsame ⊢
  congr

end LinkedList

end HelixCluster
