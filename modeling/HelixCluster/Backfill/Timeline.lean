import HelixCluster.Lib.GoInt
import HelixCluster.Lib.GoMap

/-!
# The timeline of reservations

The `timeline` of `pkg/backfill/timeline.go`, which keeps the changes of the occupancy in a map of
instants; `reserve` panics with `none`.
-/

namespace HelixCluster.Backfill

open List

def maxInt : Int64 := Int64.maxValue

def addClamp (a b : Int64) : Int64 := if b > 0 ∧ a > maxInt - b then maxInt else a + b

structure Timeline where
  capacity : Int64
  delta : GoMap Int64 Int64

def newTimeline (capacity : Int64) : Timeline := ⟨capacity, ∅⟩

namespace Timeline

def boundaries (tl : Timeline) : List Int64 := tl.delta.keys.insertionSort (· ≤ ·)

/-- The loop of `usedAt`. -/
def usedLoop (tl : Timeline) (t : Int64) : List Int64 → Int64 → Int64
  | [], used => used
  | b :: bs, used => if b > t then used else usedLoop tl t bs (used + tl.delta.read b 0)

def usedAt (tl : Timeline) (t : Int64) : Int64 := tl.usedLoop t tl.boundaries 0

/-- The loop of `fits`, over the boundaries inside the window. -/
def fitsLoop (tl : Timeline) (start stop width : Int64) : List Int64 → Bool
  | [] => true
  | b :: bs =>
    if b ≤ start then fitsLoop tl start stop width bs
    else if b ≥ stop then true
    else if tl.usedAt b + width > tl.capacity then false
    else fitsLoop tl start stop width bs

def fits (tl : Timeline) (start duration width : Int64) : Bool :=
  let stop := addClamp start duration
  if tl.usedAt start + width > tl.capacity then false
  else tl.fitsLoop start stop width tl.boundaries

def earliestStart (tl : Timeline) (notBefore duration width : Int64) : Int64 :=
  let candidates := (notBefore :: tl.boundaries.filter (· > notBefore)).insertionSort (· ≤ ·)
  match candidates.find? fun c => tl.fits c duration width with
  | some c => c
  | none =>
    match tl.boundaries.getLast? with
    | none => notBefore
    | some last => if last > notBefore then last else notBefore

/-- `delete` of a key whose change is zero. -/
def prune (delta : GoMap Int64 Int64) (t : Int64) : GoMap Int64 Int64 :=
  if delta.read t 0 = 0 then delta.erase t else delta

/-- The updates of the changes in `reserve`. -/
def book (delta : GoMap Int64 Int64) (start stop width : Int64) : GoMap Int64 Int64 :=
  let delta : GoMap Int64 Int64 := delta.insert start (delta.read start 0 + width)
  let delta : GoMap Int64 Int64 := delta.insert stop (delta.read stop 0 - width)
  prune (prune delta start) stop

def reserve (tl : Timeline) (start duration width : Int64) : Option Timeline :=
  if ¬ tl.fits start duration width then none
  else some { tl with delta := book tl.delta start (addClamp start duration) width }

/-! ### The occupancy -/

/-- The change of the occupancy by an entry, seen from an instant. -/
def change (t : ℤ) (k v : Int64) : ℤ := if k.toInt ≤ t then v.toInt else 0

/-- The occupancy at an instant. -/
def height (tl : Timeline) (t : ℤ) : ℤ := tl.delta.sum (change t)

theorem share_change (m : GoMap Int64 Int64) (t : ℤ) (k : Int64) :
    m.share (change t) k = change t k (m.read k 0) := by
  unfold GoMap.share GoMap.read
  cases m.lookup k with
  | none => simp [change]
  | some v => rfl

theorem height_insert (m : GoMap Int64 Int64) (k v : Int64) (t : ℤ) :
    GoMap.sum (change t) (m.insert k v) =
      m.sum (change t) + (change t k v - change t k (m.read k 0)) := by
  rw [GoMap.sum_insert, m.sum_erase (change t) k, share_change]
  ring

theorem height_prune (m : GoMap Int64 Int64) (k : Int64) (t : ℤ) :
    (prune m k).sum (change t) = m.sum (change t) := by
  unfold prune
  split_ifs with hzero
  · rw [m.sum_erase (change t) k, share_change, hzero]
    simp [change]
  · rfl

instance int64IsTrans : IsTrans Int64 (· ≤ ·) := ⟨fun _ _ _ => Int64.le_trans⟩

instance int64Total : Std.Total (α := Int64) (· ≤ ·) := ⟨Int64.le_total⟩

theorem sorted_boundaries (tl : Timeline) : tl.boundaries.Pairwise (· ≤ ·) :=
  pairwise_insertionSort (· ≤ ·) _

theorem mem_boundaries {tl : Timeline} {b : Int64} : b ∈ tl.boundaries ↔ b ∈ tl.delta := by
  rw [boundaries, mem_insertionSort, AList.mem_keys]

theorem height_eq_boundaries (tl : Timeline) (t : ℤ) :
    tl.height t = (tl.boundaries.map fun b => change t b (tl.delta.read b 0)).sum := by
  rw [height, GoMap.sum_eq_keys _ _ 0]
  exact (((perm_insertionSort (· ≤ ·) tl.delta.keys).map _).sum_eq).symm

theorem toInt_usedLoop (tl : Timeline) (t : Int64) {bs : List Int64}
    (hsorted : bs.Pairwise (· ≤ ·)) (used : Int64) : (tl.usedLoop t bs used).toInt =
      (used.toInt + (bs.map fun b => change t.toInt b (tl.delta.read b 0)).sum).bmod (2 ^ 64) := by
  have hrange : ∀ x : Int64, x.toInt.bmod (2 ^ 64) = x.toInt := fun x => by
    have hle := x.le_toInt
    have hlt := x.toInt_lt
    exact Int.bmod_eq_of_le (by omega) (by omega)
  induction bs generalizing used with
  | nil => simp [usedLoop]
  | cons b bs ih =>
    obtain ⟨hfirst, hsorted⟩ := pairwise_cons.mp hsorted
    unfold usedLoop
    split_ifs with hlater
    · -- All later boundaries lie behind the instant as well.
      have hzero : ∀ b' ∈ b :: bs, change t.toInt b' (tl.delta.read b' 0) = 0 := by
        intro b' hb'
        have hle : b.toInt ≤ b'.toInt := by
          rcases mem_cons.mp hb' with rfl | hb'
          · exact le_refl _
          · exact Int64.le_iff_toInt_le.mp (hfirst b' hb')
        have hlt := Int64.lt_iff_toInt_lt.mp hlater
        exact if_neg (by omega)
      rw [sum_eq_zero (by simpa using hzero), add_zero, hrange]
    · have hle : b.toInt ≤ t.toInt := Int64.le_iff_toInt_le.mp (Int64.not_lt.mp hlater)
      rw [ih hsorted, Int64.toInt_add, Int.bmod_add_bmod, map_cons, sum_cons, change,
        if_pos hle, add_assoc]

theorem toInt_usedAt (tl : Timeline) (t : Int64) :
    (tl.usedAt t).toInt = (tl.height t.toInt).bmod (2 ^ 64) := by
  rw [usedAt, toInt_usedLoop tl t tl.sorted_boundaries, height_eq_boundaries, Int64.toInt_zero,
    zero_add]

variable {m : GoMap Int64 Int64}

theorem sum_change_succ {t : ℤ} (h : ∀ k ∈ m, k.toInt ≠ t + 1) :
    m.sum (change (t + 1)) = m.sum (change t) := by
  refine congrArg List.sum (map_congr_left fun e he => ?_)
  have hne := h e.1 (AList.mem_keys.mpr (mem_map_of_mem he))
  unfold change
  split <;> split <;> first | rfl | omega

theorem toInt_read_delta (tl : Timeline) (k : Int64) :
    (tl.delta.read k 0).toInt = tl.height k.toInt - tl.height (k.toInt - 1) := by
  have hrest : GoMap.sum (change (k.toInt - 1 + 1)) (tl.delta.erase k) =
      GoMap.sum (change (k.toInt - 1)) (tl.delta.erase k) := by
    refine sum_change_succ fun k' hk' heq => (AList.mem_erase.mp hk').1 ?_
    exact Int64.toInt_inj.mp (by omega)
  rw [sub_add_cancel] at hrest
  unfold height
  rw [GoMap.sum_erase (change k.toInt) _ k, GoMap.sum_erase (change (k.toInt - 1)) _ k, hrest,
    share_change, share_change, change, change, if_pos (le_refl _), if_neg (by omega)]
  ring

/-- The occupancy is within the capacity, sums do not overflow, and reservations are in the future
and end. -/
structure Sound (tl : Timeline) : Prop where
  capacity_lt : tl.capacity.toInt < 2 ^ 62
  height_nonneg : ∀ t, 0 ≤ tl.height t
  height_le : ∀ t, tl.height t ≤ tl.capacity.toInt
  future : ∀ k ∈ tl.delta, 0 ≤ k.toInt
  ends : tl.height maxInt.toInt = 0

variable {tl : Timeline}

theorem toInt_maxInt : maxInt.toInt = 2 ^ 63 - 1 := by decide

theorem Sound.toInt_usedAt (h : tl.Sound) (t : Int64) : (tl.usedAt t).toInt = tl.height t.toInt := by
  have hcapacity := h.capacity_lt
  have hnonneg := h.height_nonneg t.toInt
  have hle := h.height_le t.toInt
  rw [Timeline.toInt_usedAt]
  exact Int.bmod_eq_of_le (by omega) (by omega)

variable {width : Int64}

theorem Sound.exceeds_iff (h : tl.Sound) (t : Int64) (hpos : 1 ≤ width.toInt)
    (hwidth : width.toInt ≤ tl.capacity.toInt) :
    tl.usedAt t + width > tl.capacity ↔ tl.capacity.toInt < tl.height t.toInt + width.toInt := by
  have hcapacity := h.capacity_lt
  have hused := h.toInt_usedAt t
  have hnonneg := h.height_nonneg t.toInt
  have hle := h.height_le t.toInt
  rw [gt_iff_lt, Int64.lt_iff_toInt_lt, toInt_add_of_bounds (by omega) (by omega), hused]

theorem exists_boundary (tl : Timeline) (start : Int64) {t : ℤ} (ht : start.toInt ≤ t) :
    ∃ b : Int64, (b = start ∨ b ∈ tl.delta ∧ start.toInt < b.toInt) ∧ b.toInt ≤ t ∧
      ∀ u, b.toInt ≤ u → u ≤ t → tl.height u = tl.height t := by
  induction t, ht using Int.leInduction with
  | base =>
    refine ⟨start, .inl rfl, le_refl _, fun u hle hge => ?_⟩
    rw [le_antisymm hge hle]
  | succ t ht ih =>
    by_cases hkey : ∃ k ∈ tl.delta, k.toInt = t + 1
    · obtain ⟨k, hk, heq⟩ := hkey
      refine ⟨k, .inr ⟨hk, by omega⟩, by omega, fun u hle hge => ?_⟩
      rw [le_antisymm hge (by omega)]
    obtain ⟨b, hb, hbt, hsince⟩ := ih
    have hsame : tl.height (t + 1) = tl.height t :=
      sum_change_succ fun k hk heq => hkey ⟨k, hk, heq⟩
    refine ⟨b, hb, by omega, fun u hle hge => ?_⟩
    rcases eq_or_lt_of_le hge with rfl | hlt
    · rfl
    · rw [hsame, hsince u hle (by omega)]

variable {start stop : Int64}

theorem Sound.fitsLoop_iff (h : tl.Sound) (hpos : 1 ≤ width.toInt)
    (hwidth : width.toInt ≤ tl.capacity.toInt) {bs : List Int64} (hsorted : bs.Pairwise (· ≤ ·)) :
    tl.fitsLoop start stop width bs = true ↔
      ∀ b ∈ bs, start.toInt < b.toInt → b.toInt < stop.toInt →
        tl.height b.toInt + width.toInt ≤ tl.capacity.toInt := by
  induction bs with
  | nil => simp [fitsLoop]
  | cons b bs ih =>
    obtain ⟨hfirst, hsorted⟩ := pairwise_cons.mp hsorted
    unfold fitsLoop
    rw [forall_mem_cons]
    split
    · next hbefore =>
      rw [ih hsorted]
      have hle := Int64.le_iff_toInt_le.mp hbefore
      exact (and_iff_right fun hlt => absurd hlt (by omega)).symm
    split
    · next hafter =>
      -- The boundaries are sorted, so no later one is inside the window.
      have hle := Int64.le_iff_toInt_le.mp hafter
      refine iff_of_true rfl ⟨fun _ hlt => absurd hlt (by omega), fun b' hb' _ hlt => ?_⟩
      have hle' := Int64.le_iff_toInt_le.mp (hfirst b' hb')
      omega
    · next hbefore hafter =>
      have hlt := Int64.lt_iff_toInt_lt.mp (Int64.not_le.mp hbefore)
      have hlt' := Int64.lt_iff_toInt_lt.mp (Int64.not_le.mp hafter)
      have hexceeds := h.exceeds_iff b hpos hwidth
      split
      · next hover =>
        refine iff_of_false Bool.false_ne_true fun hand => ?_
        have hfit := hand.1 hlt hlt'
        have hover := hexceeds.mp hover
        omega
      · next hfit =>
        rw [ih hsorted, and_iff_right fun _ _ => not_lt.mp (mt hexceeds.mpr hfit)]

variable {duration : Int64}

theorem Sound.fits_iff (h : tl.Sound) (hpos : 1 ≤ width.toInt)
    (hwidth : width.toInt ≤ tl.capacity.toInt) :
    tl.fits start duration width = true ↔ tl.height start.toInt + width.toInt ≤ tl.capacity.toInt ∧
        ∀ t, start.toInt ≤ t → t < (addClamp start duration).toInt →
          tl.height t + width.toInt ≤ tl.capacity.toInt := by
  have hexceeds := h.exceeds_iff start hpos hwidth
  unfold fits
  dsimp only
  split
  · next hover =>
    have hover := hexceeds.mp hover
    exact iff_of_false Bool.false_ne_true fun hand => by omega
  · next hfit =>
    have hfit := not_lt.mp (mt hexceeds.mpr hfit)
    rw [h.fitsLoop_iff hpos hwidth tl.sorted_boundaries, and_iff_right hfit]
    constructor
    · intro hinside t hstart hstop
      obtain ⟨b, hb, hbt, hsince⟩ := tl.exists_boundary start hstart
      rw [← hsince b.toInt (le_refl _) hbt]
      rcases hb with rfl | ⟨hmem, hlt⟩
      · exact hfit
      · exact hinside b (mem_boundaries.mpr hmem) hlt (by omega)
    · exact fun hall b _ hlt hstop => hall b.toInt (by omega) hstop

/-! ### Reserving the earliest window -/

theorem toInt_addClamp {a b : Int64} (ha : 0 ≤ a.toInt) (hb : 1 ≤ b.toInt) :
    (addClamp a b).toInt = min (a.toInt + b.toInt) (2 ^ 63 - 1) := by
  have hmax := toInt_maxInt
  have halt := a.toInt_lt
  have hblt := b.toInt_lt
  have hsub : (maxInt - b).toInt = maxInt.toInt - b.toInt :=
    toInt_sub_of_bounds (by omega) (by omega)
  have hzero : (0 : Int64).toInt = 0 := rfl
  have hclamps : b > 0 ∧ a > maxInt - b ↔ maxInt.toInt - b.toInt < a.toInt := by
    rw [gt_iff_lt, gt_iff_lt, Int64.lt_iff_toInt_lt, Int64.lt_iff_toInt_lt, hsub]
    omega
  unfold addClamp
  split_ifs with hover
  · have hover := hclamps.mp hover
    omega
  · have hover := mt hclamps.mpr hover
    rw [toInt_add_of_bounds (by omega) (by omega)]
    omega

/-- A job fits at the latest when all others have ended, and first at a boundary. -/
theorem Sound.earliestStart_spec (h : tl.Sound) (hduration : 1 ≤ duration.toInt)
    (hpos : 1 ≤ width.toInt) (hwidth : width.toInt ≤ tl.capacity.toInt) :
    ∃ c, tl.earliestStart 0 duration width = c ∧ tl.fits c duration width = true ∧
      (c = 0 ∨ c ∈ tl.delta ∧ 0 < c.toInt) ∧
      ∀ t, 0 ≤ t → (∀ u, t ≤ u → u < t + duration.toInt → tl.height u + width.toInt ≤ tl.capacity.toInt) →
        c.toInt ≤ t := by
  have hmax := toInt_maxInt
  have hzero : (0 : Int64).toInt = 0 := rfl
  set candidates := ((0 : Int64) :: tl.boundaries.filter (· > 0)).insertionSort (· ≤ ·)
    with hcandidates
  have hmem : ∀ c, c ∈ candidates ↔ c = 0 ∨ c ∈ tl.delta ∧ 0 < c.toInt := by
    intro c
    rw [hcandidates, mem_insertionSort, mem_cons, mem_filter, mem_boundaries,
      decide_eq_true_eq, gt_iff_lt, Int64.lt_iff_toInt_lt, hzero]
  obtain ⟨b, hb, hbt, hsince⟩ := tl.exists_boundary 0 (t := maxInt.toInt) (by omega)
  have hbfits : tl.fits b duration width = true := by
    have hempty : ∀ u, b.toInt ≤ u → u ≤ maxInt.toInt → tl.height u = 0 := fun u hle hge =>
      (hsince u hle hge).trans h.ends
    refine (h.fits_iff hpos hwidth).mpr ⟨?_, fun t hle hlt => ?_⟩
    · rw [hempty b.toInt (le_refl _) hbt]
      omega
    have hstop := (addClamp b duration).toInt_lt
    rw [hempty t hle (by omega)]
    omega
  have hbmem : b ∈ candidates := (hmem b).mpr (hzero ▸ hb)
  obtain ⟨c, hc⟩ := Option.isSome_iff_exists.mp
    (List.find?_isSome.mpr ⟨b, hbmem, hbfits⟩ :
      (candidates.find? fun c => tl.fits c duration width).isSome = true)
  have hstart : tl.earliestStart 0 duration width = c := by
    unfold earliestStart
    dsimp only
    rw [← hcandidates, hc]
  have hcfits : tl.fits c duration width = true :=
    List.find?_some (p := fun c => tl.fits c duration width) hc
  refine ⟨c, hstart, hcfits, (hmem c).mp (mem_of_find?_eq_some hc), fun t ht hfree => ?_⟩
  obtain ⟨d, hd, hdt, hsame⟩ := tl.exists_boundary 0 (t := t) (by omega)
  have hd0 : 0 ≤ d.toInt := by rcases hd with rfl | ⟨_, hlt⟩ <;> omega
  have hdfits : tl.fits d duration width = true := by
    have hstop := toInt_addClamp hd0 hduration
    have hwindow : ∀ u, d.toInt ≤ u → u < d.toInt + duration.toInt →
        tl.height u + width.toInt ≤ tl.capacity.toInt := by
      intro u hle hlt
      rcases le_or_gt u t with hut | hut
      · rw [hsame u hle hut]
        exact hfree t (le_refl t) (by omega)
      · exact hfree u hut.le (by omega)
    exact (h.fits_iff hpos hwidth).mpr ⟨hwindow _ (le_refl _) (by omega), fun u hle hlt => hwindow u hle (by omega)⟩
  obtain ⟨_, before, after, hsplit, hbefore⟩ := List.find?_eq_some_iff_append.mp hc
  have hsorted : candidates.Pairwise (· ≤ ·) := pairwise_insertionSort (· ≤ ·) _
  rw [hsplit, pairwise_append, pairwise_cons] at hsorted
  have hdmem : d ∈ before ++ c :: after := hsplit ▸ (hmem d).mpr (hzero ▸ hd)
  rcases mem_append.mp hdmem with hmem | hmem
  · exact absurd hdfits (by simpa using hbefore d hmem)
  rcases mem_cons.mp hmem with rfl | hmem
  · exact hdt
  · exact (Int64.le_iff_toInt_le.mp (hsorted.2.1.1 d hmem)).trans hdt

theorem mem_of_mem_prune {t k : Int64} (h : k ∈ prune m t) : k ∈ m := by
  unfold prune at h
  split at h
  · exact (AList.mem_erase.mp h).2
  · exact h

theorem mem_of_mem_book {k : Int64} (h : k ∈ book m start stop width) :
    k = stop ∨ k = start ∨ k ∈ m := by
  have hmem := mem_of_mem_prune (mem_of_mem_prune h)
  rwa [AList.mem_insert, AList.mem_insert] at hmem

theorem Sound.abs_read_le (h : tl.Sound) (k : Int64) :
    |(tl.delta.read k 0).toInt| ≤ tl.capacity.toInt := by
  have hhere := h.height_le k.toInt
  have hhere' := h.height_nonneg k.toInt
  have hbefore := h.height_le (k.toInt - 1)
  have hbefore' := h.height_nonneg (k.toInt - 1)
  rw [tl.toInt_read_delta, abs_le]
  omega

theorem Sound.height_book (h : tl.Sound) (hpos : 1 ≤ width.toInt)
    (hwidth : width.toInt ≤ tl.capacity.toInt) (t : ℤ) :
    (book tl.delta start stop width).sum (change t) =
      tl.height t + ((if start.toInt ≤ t then width.toInt else 0) -
        if stop.toInt ≤ t then width.toInt else 0) := by
  have hcapacity := h.capacity_lt
  have habs : ∀ k, -tl.capacity.toInt ≤ (tl.delta.read k 0).toInt ∧
      (tl.delta.read k 0).toInt ≤ tl.capacity.toInt := fun k => abs_le.mp (h.abs_read_le k)
  have hstart := habs start
  have hstop := habs stop
  -- Neither of the two updates overflows.
  have hadd : (tl.delta.read start 0 + width).toInt = (tl.delta.read start 0).toInt + width.toInt :=
    toInt_add_of_bounds (by omega) (by omega)
  unfold book
  dsimp only
  rw [height_prune, height_prune]
  set delta : GoMap Int64 Int64 := tl.delta.insert start (tl.delta.read start 0 + width)
  have hread : delta.read stop 0 =
      if stop = start then tl.delta.read start 0 + width else tl.delta.read stop 0 :=
    GoMap.read_insert_if ..
  have hsub : (delta.read stop 0 - width).toInt = (delta.read stop 0).toInt - width.toInt := by
    refine toInt_sub_of_bounds ?_ ?_ <;> rw [hread] <;> split <;> omega
  have hfirst : delta.sum (change t) =
      tl.height t + if start.toInt ≤ t then width.toInt else 0 := by
    rw [height_insert, change, change, hadd]
    unfold height
    split <;> ring
  rw [height_insert, hfirst, change, change, hsub]
  split <;> split <;> ring

theorem Sound.reserve (h : tl.Sound) (hpos : 1 ≤ width.toInt)
    (hwidth : width.toInt ≤ tl.capacity.toInt) (hstart : 0 ≤ start.toInt)
    (hduration : 1 ≤ duration.toInt) (hfits : tl.fits start duration width = true) :
    ∃ tl', tl.reserve start duration width = some tl' ∧ tl'.Sound ∧ tl'.capacity = tl.capacity ∧
      (∀ k ∈ tl'.delta, k = addClamp start duration ∨ k = start ∨ k ∈ tl.delta) ∧
      ∀ t, tl'.height t = tl.height t +
        if start.toInt ≤ t ∧ t < (addClamp start duration).toInt then width.toInt else 0 := by
  have hstop := toInt_addClamp hstart hduration
  have hlt := start.toInt_lt
  have hfree := ((h.fits_iff hpos hwidth).mp hfits).2
  refine ⟨_, if_neg (not_not.mpr hfits), ?_⟩
  generalize addClamp start duration = stop at hstop hfree ⊢
  have hheight : ∀ t, height { tl with delta := book tl.delta start stop width } t =
      tl.height t + if start.toInt ≤ t ∧ t < stop.toInt then width.toInt else 0 := by
    intro t
    refine (h.height_book hpos hwidth t).trans ?_
    congr 1
    split_ifs <;> omega
  refine ⟨⟨h.capacity_lt, fun t => ?_, fun t => ?_, fun k hk => ?_, ?_⟩, rfl,
    fun k hk => mem_of_mem_book hk, hheight⟩
  · have hnonneg := h.height_nonneg t
    rw [hheight]
    split <;> omega
  · have hle := h.height_le t
    show _ ≤ tl.capacity.toInt
    rw [hheight]
    split
    · next hinside => exact hfree t hinside.1 hinside.2
    · omega
  · rcases mem_of_mem_book hk with rfl | rfl | hmem
    · omega
    · exact hstart
    · exact h.future k hmem
  have hmax := toInt_maxInt
  have hended : ¬ (start.toInt ≤ maxInt.toInt ∧ maxInt.toInt < stop.toInt) := by omega
  rw [hheight, if_neg hended, h.ends, add_zero]

end Timeline

end HelixCluster.Backfill
