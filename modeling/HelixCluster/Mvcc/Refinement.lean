import HelixCluster.Mvcc.Store

/-!
# The store refines a log of `Put` calls

The abstract state of a store that was never compacted is the list of the `Put` calls made so far,
as long as the revision counter has not come round (`putAll_refines_log`).
-/

namespace HelixCluster.Mvcc

open List

/-- A call of `Put`: the key and the value. -/
abbrev PutCall := Str × List UInt8

/-- Calls of `Put` in sequence. -/
def Store.putAll (s : Store) : List PutCall → Option Store
  | [] => some s
  | (key, val) :: rest => do
    let (_, s) ← s.put key val
    s.putAll rest

/-! ## The abstract log -/

/-- The value of the last call for the key. -/
def lastPut (puts : List PutCall) (key : Str) : Option (List UInt8) :=
  (puts.filter fun call => call.1 = key).getLast?.map Prod.snd

/-- The calls as events, numbered from one. -/
def numbered (puts : List PutCall) : List Event :=
  (puts.zipIdx 1).map fun (call, number) => ⟨.ofNat number, call.1, call.2⟩

/-- The versions of a key in the log. -/
def versionsOf (puts : List PutCall) (key : Str) : List Version :=
  ((numbered puts).filter fun e => e.key = key).map fun e => ⟨e.rev, e.value⟩

variable (puts : List PutCall) {s : Store}

theorem numbered_concat (key : Str) (val : List UInt8) :
    numbered (puts ++ [(key, val)]) = numbered puts ++ [⟨.ofNat (puts.length + 1), key, val⟩] := by
  simp [numbered, zipIdx_append, Nat.add_comm]

theorem versionsOf_concat (key : Str) (val : List UInt8) (k : Str) :
    versionsOf (puts ++ [(key, val)]) k =
      if k = key then versionsOf puts key ++ [⟨.ofNat (puts.length + 1), val⟩]
      else versionsOf puts k := by
  unfold versionsOf
  rw [numbered_concat, filter_append, map_append]
  split_ifs with heq
  · simp [heq]
  · simp [Ne.symm heq]

section

variable {puts : List PutCall} (hlength : puts.length < 2 ^ 63)

include hlength

theorem toInt_rev_le_of_mem_numbered {e : Event} (he : e ∈ numbered puts) :
    e.rev.toInt ≤ puts.length := by
  obtain ⟨⟨call, number⟩, hmem, rfl⟩ := mem_map.mp he
  have hnumber := snd_lt_of_mem_zipIdx hmem
  rw [Int64.toInt_ofNat_of_lt (by omega)]
  omega

theorem numbered_ascending : (numbered puts).Pairwise fun a b => a.rev < b.rev := by
  induction puts using List.reverseRecOn with
  | nil => exact List.Pairwise.nil
  | append_singleton puts call ih =>
    rw [length_append, length_singleton] at hlength
    rw [numbered_concat]
    refine pairwise_append.mpr ⟨ih (by omega), pairwise_singleton _ _, ?_⟩
    intro a ha b hb
    obtain rfl := mem_singleton.mp hb
    have hle := toInt_rev_le_of_mem_numbered (by omega) ha
    rw [Int64.lt_iff_toInt_lt, Int64.toInt_ofNat_of_lt hlength]
    omega

theorem filter_numbered {r : Int64} (hr : 0 ≤ r) :
    (numbered puts).filter (fun e => e.rev ≤ r) = numbered (puts.take r.toInt.toNat) := by
  rw [Int64.le_iff_toInt_le, Int64.toInt_zero] at hr
  induction puts using List.reverseRecOn with
  | nil => simp [numbered]
  | append_singleton puts call ih =>
    rw [length_append, length_singleton] at hlength
    rw [numbered_concat, filter_append, ih (by omega)]
    have hrev : Int64.ofNat (puts.length + 1) ≤ r ↔ ((puts.length + 1 : ℕ) : Int) ≤ r.toInt := by
      rw [Int64.le_iff_toInt_le, Int64.toInt_ofNat_of_lt hlength]
    simp only [filter_cons, hrev, decide_eq_true_eq, filter_nil]
    split
    · have hall : puts.length + 1 ≤ r.toInt.toNat := by omega
      rw [take_of_length_le (by omega), take_of_length_le (by simpa using hall), numbered_concat]
    · rw [take_append_of_le_length (by omega), append_nil]

end

theorem getLast_versionsOf (key : Str) :
    (versionsOf puts key).getLast?.map Version.value = lastPut puts key := by
  have hforget : (numbered puts).map (fun e => (e.key, e.value)) = puts := by
    rw [numbered, map_map]
    exact zipIdx_map_fst 1 puts
  have hcalls : puts.filter (fun call => call.1 = key) =
      ((numbered puts).filter fun e => e.key = key).map fun e => (e.key, e.value) := by
    conv_lhs => rw [← hforget]
    rw [filter_map]
    rfl
  rw [lastPut, hcalls, versionsOf, List.getLast?_map, List.getLast?_map, Option.map_map,
    Option.map_map]
  rfl

/-! ## The simulation -/

/-- The store holds exactly what these calls have put. -/
structure Represents (s : Store) (puts : List PutCall) : Prop where
  valid : s.Valid
  rev : s.rev = .ofNat puts.length
  log : s.log = numbered puts
  history : ∀ k, s.history k = versionsOf puts k
  keys : ∀ k, k ∈ s.entries.map Entry.key ↔ k ∈ puts.map Prod.fst

theorem represents_new : Represents Store.new [] where
  valid := Store.new_valid
  rev := rfl
  log := rfl
  history := fun _ => rfl
  keys := by simp [Store.entries, Store.new, newBtree]

theorem Represents.put {puts : List PutCall} (hrep : Represents s puts)
    (key : Str) (val : List UInt8) :
    ∃ s', s.put key val = some (.ofNat (puts.length + 1), s') ∧
      Represents s' (puts ++ [(key, val)]) := by
  obtain ⟨s', hput, hvalid, hrev, hlog, hhistory, hkeys⟩ := hrep.valid.put_spec key val
  have hnext : s.rev + 1 = .ofNat (puts.length + 1) := by
    rw [hrep.rev, Int64.ofNat_add]
    rfl
  rw [hnext] at hput hrev hlog hhistory
  refine ⟨s', hput, hvalid, by simpa using hrev, ?_, fun k => ?_, fun k => ?_⟩
  · rw [hlog, hrep.log, numbered_concat]
  · rw [hhistory, hrep.history, hrep.history, versionsOf_concat]
  · rw [hkeys, hrep.keys, map_append, mem_append, or_comm]
    simp

theorem Represents.putAll {puts : List PutCall} (hrep : Represents s puts)
    (calls : List PutCall) : ∃ s', s.putAll calls = some s' ∧ Represents s' (puts ++ calls) := by
  induction calls generalizing s puts with
  | nil => exact ⟨s, rfl, by simpa using hrep⟩
  | cons call rest ih =>
    obtain ⟨key, val⟩ := call
    obtain ⟨s₁, hput, hrep₁⟩ := hrep.put key val
    obtain ⟨s', hrest, hrep'⟩ := ih hrep₁
    exact ⟨s', by simp [Store.putAll, hput, hrest], by simpa using hrep'⟩

theorem Represents.get {puts : List PutCall} (hrep : Represents s puts)
    (hlength : puts.length < 2 ^ 63) (key : Str) (r : Int64) :
    s.get key r = some (lastPut (if r ≤ 0 then puts else puts.take r.toInt.toNat) key) := by
  rw [hrep.valid.get_eq, hrep.history]
  split_ifs with hnonpos
  · rw [KeyHistory.get_latest _ hnonpos, getLast_versionsOf]
  · have hvisible : (versionsOf puts key).filter (fun v => v.modRev ≤ r) =
        versionsOf (puts.take r.toInt.toNat) key := by
      rw [versionsOf, versionsOf, ← filter_numbered hlength (Int64.le_of_lt (Int64.not_le.mp hnonpos)),
        filter_map, filter_filter, filter_filter]
      congr 2
      funext e
      exact Bool.and_comm _ _
    have hascending : KeyHistory.Ascending (versionsOf puts key) :=
      pairwise_map.mpr ((numbered_ascending hlength).filter _)
    rw [KeyHistory.get_asOf hascending (Int64.not_le.mp hnonpos), KeyHistory.asOf, hvisible,
      getLast_versionsOf]

theorem Represents.range {puts : List PutCall} (hrep : Represents s puts)
    (start stop : Str) : ∃ keys, s.range start stop = some keys ∧ keys.Pairwise (· < ·) ∧
      ∀ k, k ∈ keys ↔ k ∈ puts.map Prod.fst ∧ InInterval start stop k := by
  refine ⟨_, hrep.valid.range_eq start stop, ?_, fun k => ?_⟩
  · exact pairwise_map.mpr (hrep.valid.index.sorted.filter _)
  rw [← hrep.keys]
  simp only [keysIn, mem_map, mem_filter, decide_eq_true_eq]
  grind

/-- Before the counter comes round, `Get` returns the last value up to a revision, `Range` sorted
keys, and `Watch` the later calls. -/
theorem putAll_refines_log (puts : List PutCall) (hlength : puts.length < 2 ^ 63) :
    ∃ s, Store.new.putAll puts = some s ∧ s.rev.toInt = puts.length ∧
      (∀ k r, s.get k r = some (lastPut (if r ≤ 0 then puts else puts.take r.toInt.toNat) k)) ∧
      (∀ start stop, ∃ keys, s.range start stop = some keys ∧ keys.Pairwise (· < ·) ∧
        ∀ k, k ∈ keys ↔ k ∈ puts.map Prod.fst ∧ InInterval start stop k) ∧
      ∀ f, s.watch f = (numbered puts).filter fun e => f < e.rev := by
  obtain ⟨s, hputs, hrep⟩ := represents_new.putAll puts
  rw [nil_append] at hrep
  refine ⟨s, hputs, ?_, hrep.get hlength, hrep.range, fun f => congrArg _ hrep.log⟩
  rw [hrep.rev, Int64.toInt_ofNat_of_lt hlength]

/-- After two calls for one key, a read at 1 returns the first value and one at 2 the second. -/
theorem overwritten_refines_log : ∃ s, Store.new.putAll [([107], [97]), ([107], [98])] = some s ∧
    s.get [107] 1 = some (some [97]) ∧ s.get [107] 2 = some (some [98]) := by
  obtain ⟨s, hputs, -, hget, -⟩ := putAll_refines_log [([107], [97]), ([107], [98])] (by decide)
  exact ⟨s, hputs, hget [107] 1, hget [107] 2⟩

end HelixCluster.Mvcc
