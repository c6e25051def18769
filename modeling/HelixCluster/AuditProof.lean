import HelixCluster.Lib.FormatUint
import HelixCluster.Lib.GoMap

/-!
# The serialization under an audit commitment

`canonicalSerialize` writes the incentives node by node in the order of the node IDs, each as its
length, the ID and the value, closed by separator bytes.
-/

namespace HelixCluster.AuditProof

open List

variable {F : Type}

/-- What `strconv` and `==` do with a `float64`. -/
structure Runtime (F : Type) where
  zero : F
  isZero : F → Bool
  formatFloat : F → Str

variable (r : Runtime F)

/-- Negative zero is written as zero. -/
def canonicalFloat (f : F) : Str := r.formatFloat (if r.isZero f then r.zero else f)

/-- One iteration of the loop. -/
def record (node : Str) (incentive : F) : Str :=
  formatInt node.length 10 ++ 31 :: (node ++ 31 :: (canonicalFloat r incentive ++ [30]))

def canonicalSerialize (incentives : GoMap Str F) : Str :=
  incentives.sortedKeys.flatMap fun node => record r node (incentives.read node r.zero)

theorem formatInt_length (node : Str) : formatInt node.length 10 = formatUint node.length 10 :=
  if_neg (by omega)

theorem separator_notMem (node : Str) : 31 ∉ formatInt node.length 10 := by
  intro hmem
  rw [formatInt_length] at hmem
  have hbytes := formatUint_bytes (by decide) (by decide) hmem
  revert hbytes
  decide

variable {r}

theorem record_inj {node other : Str} {v w : F} {rest tail : Str}
    (hv : 30 ∉ canonicalFloat r v) (hw : 30 ∉ canonicalFloat r w)
    (h : record r node v ++ rest = record r other w ++ tail) :
    node = other ∧ canonicalFloat r v = canonicalFloat r w ∧ rest = tail := by
  simp only [record, append_assoc, cons_append, nil_append] at h
  obtain ⟨hdigits, h⟩ := append_separator_inj (separator_notMem node) (separator_notMem other) h
  rw [formatInt_length, formatInt_length] at hdigits
  -- The lengths agree, so the two IDs end at the same place.
  obtain ⟨rfl, hclosed⟩ := append_inj h (formatUint_inj (by decide) (by decide) hdigits)
  obtain ⟨htext, hrest⟩ := append_separator_inj hv hw (cons.inj hclosed).2
  exact ⟨rfl, htext, hrest⟩

theorem flatMap_record_inj {xs ys : List Str} {f g : Str → F}
    (hf : ∀ k ∈ xs, 30 ∉ canonicalFloat r (f k)) (hg : ∀ k ∈ ys, 30 ∉ canonicalFloat r (g k))
    (h : xs.flatMap (fun k => record r k (f k)) = ys.flatMap fun k => record r k (g k)) :
    xs = ys ∧ ∀ k ∈ xs, canonicalFloat r (f k) = canonicalFloat r (g k) := by
  induction xs generalizing ys with
  | nil =>
    cases ys with
    | nil => simp
    | cons k ys => simp [record] at h
  | cons k xs ih =>
    cases ys with
    | nil => simp [record] at h
    | cons j ys =>
      rw [forall_mem_cons] at hf hg
      rw [flatMap_cons, flatMap_cons] at h
      obtain ⟨rfl, htext, h⟩ := record_inj hf.1 hg.1 h
      obtain ⟨rfl, hall⟩ := ih hf.2 hg.2 h
      exact ⟨rfl, forall_mem_cons.mpr ⟨htext, hall⟩⟩

theorem lookup_of_mem {m : GoMap Str F} {k : Str} (h : k ∈ m) (zero : F) :
    m.lookup k = some (m.read k zero) := by
  obtain ⟨v, hv⟩ := GoMap.exists_lookup_of_mem h
  rw [GoMap.read, hv]
  rfl

/-- The values of a map. -/
def values (m : GoMap Str F) : Set F := {v | ∃ k, m.lookup k = some v}

/-- Two maps in any order are written with the same bytes exactly if they are the same. -/
theorem canonicalSerialize_eq_iff (r : Runtime F) (m n : GoMap Str F)
    (hinj : Set.InjOn (canonicalFloat r) (values m ∪ values n))
    (hseparator : ∀ v ∈ values m ∪ values n, 30 ∉ canonicalFloat r v) :
    canonicalSerialize r m = canonicalSerialize r n ↔ ∀ k, m.lookup k = n.lookup k := by
  have hm : ∀ k ∈ m, m.read k r.zero ∈ values m ∪ values n :=
    fun k hk => .inl ⟨k, lookup_of_mem hk r.zero⟩
  have hn : ∀ k ∈ n, n.read k r.zero ∈ values m ∪ values n :=
    fun k hk => .inr ⟨k, lookup_of_mem hk r.zero⟩
  constructor
  · intro h k
    obtain ⟨hsorted, htexts⟩ := flatMap_record_inj
      (fun k hk => hseparator _ (hm k (GoMap.mem_sortedKeys.mp hk)))
      (fun k hk => hseparator _ (hn k (GoMap.mem_sortedKeys.mp hk))) h
    have hkeys : k ∈ m ↔ k ∈ n := by rw [← GoMap.mem_sortedKeys, hsorted, GoMap.mem_sortedKeys]
    by_cases hk : k ∈ m
    · have htext := htexts k (GoMap.mem_sortedKeys.mpr hk)
      have hvalue := hinj (hm k hk) (hn k (hkeys.mp hk)) htext
      rw [lookup_of_mem hk r.zero, lookup_of_mem (hkeys.mp hk) r.zero, hvalue]
    · rw [AList.lookup_eq_none.mpr hk, AList.lookup_eq_none.mpr (mt hkeys.mpr hk)]
  intro h
  have hsorted : m.sortedKeys = n.sortedKeys := by
    refine GoMap.sortedKeys_congr fun k => ?_
    rw [← AList.lookup_isSome, h, AList.lookup_isSome]
  simp only [canonicalSerialize, GoMap.read, h, hsorted]

/-- The incentives zero and one. -/
def bitRuntime : Runtime Bool := ⟨false, (!·), fun f => [if f then 49 else 48]⟩

theorem canonicalSerialize_two_orders :
    canonicalSerialize bitRuntime (AList.insert [97] true (AList.singleton [31] false)) =
      canonicalSerialize bitRuntime (AList.insert [31] false (AList.singleton [97] true)) := by
  refine (canonicalSerialize_eq_iff bitRuntime _ _ ?_ fun v _ => ?_).mpr ?_
  · exact Function.Injective.injOn (by decide)
  · cases v <;> decide
  intro k
  simp only [GoMap.lookup_insert_if, GoMap.lookup_singleton_if]
  split_ifs <;> simp_all

end HelixCluster.AuditProof
