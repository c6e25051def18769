import HelixCluster.Lib.FormatUint
import HelixCluster.Lib.GoMap
import HelixCluster.Lib.Keep

/-!
# Merging session states

The `CRDTSessionState` of `pkg/session` with its `Merge`, and `Apply` of `pkg/checkpoint_merge`. A
nil map of panes is the empty one.
-/

namespace HelixCluster.Session

structure CrdtPane where
  id : Str
  command : Str
  workingDir : Str
  status : Int64
  version : UInt64
  deriving DecidableEq

structure CrdtWindow where
  id : Str
  name : Str
  layout : Str
  panes : GoMap Str CrdtPane
  version : UInt64

structure CrdtSessionState where
  windows : GoMap Str CrdtWindow
  version : UInt64

def windowContentKey (w : CrdtWindow) : Str := w.name ++ 0 :: w.layout

def paneContentKey (p : CrdtPane) : Str :=
  p.command ++ 0 :: (p.workingDir ++ 0 :: formatInt p.status.toInt 10)

def windowScalarWins (ow cw : CrdtWindow) : Bool :=
  if ow.version ≠ cw.version then ow.version > cw.version
  else windowContentKey ow > windowContentKey cw

def paneWins (op cp : CrdtPane) : Bool :=
  if op.version ≠ cp.version then op.version > cp.version
  else paneContentKey op > paneContentKey cp

/-- The body of the loop of `mergePanes`. -/
def mergePane (dst : GoMap Str CrdtPane) (pid : Str) (op : CrdtPane) :
    GoMap Str CrdtPane :=
  match dst.lookup pid with
  | none => dst.insert pid op
  | some cp => if paneWins op cp then dst.insert pid op else dst

def mergePanes (dst src : GoMap Str CrdtPane) : GoMap Str CrdtPane :=
  src.foldl mergePane dst

/-- A window that both states have. -/
def joinWindows (cw ow : CrdtWindow) : CrdtWindow where
  id := cw.id
  name := if windowScalarWins ow cw then ow.name else cw.name
  layout := if windowScalarWins ow cw then ow.layout else cw.layout
  version := if ow.version > cw.version then ow.version else cw.version
  panes := mergePanes cw.panes ow.panes

/-- The body of the loop of `Merge`. -/
def mergeWindow (windows : GoMap Str CrdtWindow) (wid : Str) (ow : CrdtWindow) :
    GoMap Str CrdtWindow :=
  match windows.lookup wid with
  | none => windows.insert wid ow
  | some cw => windows.insert wid (joinWindows cw ow)

def CrdtSessionState.merge (c other : CrdtSessionState) : CrdtSessionState where
  windows := other.windows.foldl mergeWindow c.windows
  version := if other.version > c.version then other.version else c.version

/-! ## What a state shows -/

/-- The fields of a window, with its panes as a function. -/
@[ext]
structure WindowView where
  id : Str
  scalars : Str × Str × UInt64
  panes : Str → Option CrdtPane

def CrdtWindow.view (w : CrdtWindow) : WindowView :=
  ⟨w.id, (w.name, w.layout, w.version), fun pid => w.panes.lookup pid⟩

/-- The windows of a state with all their fields, without the version counter of the replica. -/
def CrdtSessionState.observe (c : CrdtSessionState) : Str → Option WindowView :=
  fun wid => (c.windows.lookup wid).map CrdtWindow.view

/-- The order of `windowScalarWins`. -/
def scalarRank (s : Str × Str × UInt64) : ℕ ×ₗ Str :=
  toLex (s.2.2.toNat, s.1 ++ 0 :: s.2.1)

/-- The order of `paneWins`. -/
def paneRank (p : CrdtPane) : ℕ ×ₗ Str := toLex (p.version.toNat, paneContentKey p)

theorem windowScalarWins_iff (ow cw : CrdtWindow) :
    windowScalarWins ow cw ↔ scalarRank cw.view.scalars < scalarRank ow.view.scalars := by
  simp only [windowScalarWins, scalarRank, CrdtWindow.view, windowContentKey,
    Prod.Lex.toLex_lt_toLex]
  by_cases h : ow.version = cw.version
  · simp [h]
  · have hne : cw.version.toNat ≠ ow.version.toNat := fun heq => h (UInt64.toNat_inj.mp heq.symm)
    simp [h, hne, UInt64.lt_iff_toNat_lt]

theorem paneWins_iff (op cp : CrdtPane) : paneWins op cp ↔ paneRank cp < paneRank op := by
  simp only [paneWins, paneRank, Prod.Lex.toLex_lt_toLex]
  by_cases h : op.version = cp.version
  · simp [h]
  · have hne : cp.version.toNat ≠ op.version.toNat := fun heq => h (UInt64.toNat_inj.mp heq.symm)
    simp [h, hne, UInt64.lt_iff_toNat_lt]

/-- A window takes the larger scalars and, for each pane, the larger one. -/
def WindowView.join (v w : WindowView) : WindowView where
  id := v.id
  scalars := keep scalarRank v.scalars w.scalars
  panes pid := (v.panes pid).merge (keep paneRank) (w.panes pid)

theorem mergePane_updates :
    GoMap.Updates mergePane fun op old => old.merge (keep paneRank) (some op) := by
  intro dst pid op other
  unfold mergePane
  rcases eq_or_ne other pid with rfl | hother
  · rw [if_pos rfl]
    cases hlookup : dst.lookup other with
    | none => simp
    | some cp =>
      have hwins := paneWins_iff op cp
      by_cases hrank : paneRank cp < paneRank op
      · simp [keep, hrank, hwins.mpr hrank]
      · simp [keep, hrank, mt hwins.mp hrank, hlookup]
  rw [if_neg hother]
  cases dst.lookup pid with
  | none => exact AList.lookup_insert_ne hother
  | some cp =>
    dsimp only
    split
    · exact AList.lookup_insert_ne hother
    · rfl

theorem view_joinWindows (cw ow : CrdtWindow) :
    (joinWindows cw ow).view = cw.view.join ow.view := by
  have hwins := windowScalarWins_iff ow cw
  have hpanes (pid : Str) : (mergePanes cw.panes ow.panes).lookup pid =
      (cw.panes.lookup pid).merge (keep paneRank) (ow.panes.lookup pid) := by
    rw [mergePanes, GoMap.lookup_foldl_update mergePane_updates]
    cases ow.panes.lookup pid <;> simp
  refine WindowView.ext rfl ?_ (funext hpanes)
  show (_, _, _) = keep scalarRank cw.view.scalars ow.view.scalars
  by_cases hrank : scalarRank cw.view.scalars < scalarRank ow.view.scalars
  · have hle : cw.version.toNat ≤ ow.version.toNat := (Prod.Lex.monotone_fst _ _ hrank.le :)
    have hversion : (joinWindows cw ow).version = ow.version := by
      rw [joinWindows, ite_eq_left_iff, gt_iff_lt, UInt64.lt_iff_toNat_lt, ← UInt64.toNat_inj]
      omega
    rw [keep, if_pos hrank, hversion]
    simp [CrdtWindow.view, joinWindows, hwins.mpr hrank]
  have hle : ow.version.toNat ≤ cw.version.toNat :=
    (Prod.Lex.monotone_fst _ _ (not_lt.mp hrank) :)
  have hversion : (joinWindows cw ow).version = cw.version := by
    rw [joinWindows, ite_eq_right_iff, gt_iff_lt, UInt64.lt_iff_toNat_lt]
    omega
  rw [keep, if_neg hrank, hversion]
  simp [CrdtWindow.view, joinWindows, mt hwins.mp hrank]

theorem mergeWindow_updates :
    GoMap.Updates mergeWindow fun ow old => some (old.elim ow fun cw => joinWindows cw ow) := by
  intro windows wid ow other
  unfold mergeWindow
  rcases eq_or_ne other wid with rfl | hother
  · rw [if_pos rfl]
    cases windows.lookup other <;> simp
  · rw [if_neg hother]
    cases windows.lookup wid <;> exact AList.lookup_insert_ne hother

theorem observe_merge (a b : CrdtSessionState) (wid : Str) :
    (a.merge b).observe wid = (a.observe wid).merge WindowView.join (b.observe wid) := by
  unfold CrdtSessionState.observe CrdtSessionState.merge
  rw [GoMap.lookup_foldl_update mergeWindow_updates]
  cases b.windows.lookup wid with
  | none => simp
  | some ow => cases a.windows.lookup wid <;> simp [view_joinWindows]

/-! ## The laws of a join -/

theorem WindowView.join_self (v : WindowView) : v.join v = v := by
  refine WindowView.ext rfl (keep_self ..) (funext fun pid => ?_)
  show (v.panes pid).merge (keep paneRank) (v.panes pid) = v.panes pid
  cases v.panes pid <;> simp [keep_self]

theorem WindowView.join_assoc (u v w : WindowView) : (u.join v).join w = u.join (v.join w) := by
  refine WindowView.ext rfl (keep_assoc ..) (funext fun pid => ?_)
  show ((u.panes pid).merge (keep paneRank) (v.panes pid)).merge (keep paneRank) (w.panes pid) =
    (u.panes pid).merge (keep paneRank) ((v.panes pid).merge (keep paneRank) (w.panes pid))
  cases u.panes pid <;> cases v.panes pid <;> cases w.panes pid <;> simp [keep_assoc]

theorem WindowView.join_comm_iff (v w : WindowView) : v.join w = w.join v ↔
      v.id = w.id ∧ (scalarRank v.scalars = scalarRank w.scalars → v.scalars = w.scalars) ∧
        ∀ pid, ∀ p ∈ v.panes pid, ∀ q ∈ w.panes pid, paneRank p = paneRank q → p = q := by
  simp only [WindowView.ext_iff, WindowView.join, keep_comm_iff, funext_iff, option_merge_comm_iff]

/-- Windows and panes with equal versions and content keys have the same content. -/
def Compatible (a b : CrdtSessionState) : Prop :=
  ∀ wid, ∀ v ∈ a.windows.lookup wid, ∀ w ∈ b.windows.lookup wid, v.id = w.id ∧
      (v.version = w.version → windowContentKey v = windowContentKey w →
        v.name = w.name ∧ v.layout = w.layout) ∧
      ∀ pid, ∀ p ∈ v.panes.lookup pid, ∀ q ∈ w.panes.lookup pid,
        p.version = q.version → paneContentKey p = paneContentKey q → p = q

theorem scalarRank_eq_iff (v w : CrdtWindow) :
    scalarRank v.view.scalars = scalarRank w.view.scalars ↔
      v.version = w.version ∧ windowContentKey v = windowContentKey w := by
  simp [scalarRank, CrdtWindow.view, windowContentKey, UInt64.toNat_inj]

theorem paneRank_eq_iff (p q : CrdtPane) :
    paneRank p = paneRank q ↔ p.version = q.version ∧ paneContentKey p = paneContentKey q := by
  simp [paneRank, UInt64.toNat_inj]

theorem observe_merge_comm_iff (a b : CrdtSessionState) :
    (a.merge b).observe = (b.merge a).observe ↔ Compatible a b := by
  simp only [funext_iff, observe_merge, option_merge_comm_iff, WindowView.join_comm_iff]
  refine forall_congr' fun wid => ?_
  simp only [CrdtSessionState.observe, Option.mem_def, Option.map_eq_some_iff,
    forall_exists_index, and_imp, forall_apply_eq_imp_iff₂, scalarRank_eq_iff, paneRank_eq_iff]
  refine forall₂_congr fun v _ => forall₂_congr fun w _ => and_congr Iff.rfl
    (and_congr (forall₂_congr fun hversion _ => ?_) Iff.rfl)
  simp [CrdtWindow.view, hversion]

/-! ## Checkpoints -/

/-- The errors of `RestoreCRDT`. -/
inductive CheckpointError where
  | magic
  | version
  | checksum
  | decode
  deriving DecidableEq

structure Checkpoint where
  magic : List UInt8
  version : UInt32
  checksum : List UInt8
  data : List UInt8

/-- The encoding and the digest of checkpoints. The encoding loses nothing. -/
structure Codec where
  toBytes : CrdtSessionState → List UInt8
  fromBytes : List UInt8 → Option CrdtSessionState
  checksumOf : UInt32 → List UInt8 → List UInt8
  lossless : ∀ state, (fromBytes (toBytes state)).map CrdtSessionState.observe = some state.observe

theorem countable_goMap {K V : Type} [Countable K] [Countable V] : Countable (GoMap K V) := by
  refine Function.Injective.countable (f := fun m : GoMap K V => m.entries.map fun e => (e.1, e.2))
    fun m n h => AList.ext (List.map_injective_iff.mpr ?_ h)
  rintro ⟨k, v⟩ ⟨k', v'⟩ h
  simpa using h

theorem countable_crdtSessionState : Countable CrdtSessionState := by
  have hpane : Countable CrdtPane := by
    refine Function.Injective.countable
      (f := fun p : CrdtPane => (p.id, p.command, p.workingDir, p.status, p.version)) ?_
    rintro ⟨⟩ ⟨⟩ h
    simpa using h
  have hpanes : Countable (GoMap Str CrdtPane) := countable_goMap
  have hwindow : Countable CrdtWindow := by
    refine Function.Injective.countable
      (f := fun w : CrdtWindow => (w.id, w.name, w.layout, w.panes, w.version)) ?_
    rintro ⟨⟩ ⟨⟩ h
    simpa using h
  have hwindows : Countable (GoMap Str CrdtWindow) := countable_goMap
  refine Function.Injective.countable
    (f := fun c : CrdtSessionState => (c.windows, c.version)) ?_
  rintro ⟨⟩ ⟨⟩ h
  simpa using h

theorem Codec.nonempty : Nonempty Codec := by
  have := countable_crdtSessionState
  obtain ⟨f, hf⟩ := exists_injective_nat CrdtSessionState
  refine ⟨fun state => List.replicate (f state) 0, fun data => Function.partialInv f data.length,
    fun _ _ => [], fun state => ?_⟩
  rw [List.length_replicate, Function.partialInv_left hf]
  rfl

def checkpointMagic : List UInt8 := [72, 88, 67, 75]

def crdtCheckpointVersion : UInt32 := 2

namespace Codec

variable (codec : Codec)

def newCrdtCheckpoint (state : CrdtSessionState) : Checkpoint where
  magic := checkpointMagic
  version := crdtCheckpointVersion
  checksum := codec.checksumOf crdtCheckpointVersion (codec.toBytes state)
  data := codec.toBytes state

def restoreCrdt (c : Checkpoint) : Except CheckpointError CrdtSessionState :=
  if c.magic ≠ checkpointMagic then .error .magic
  else if c.version ≠ crdtCheckpointVersion then .error .version
  else if codec.checksumOf c.version c.data ≠ c.checksum then .error .checksum
  else
    match codec.fromBytes c.data with
    | none => .error .decode
    | some state => .ok state

def apply (state : CrdtSessionState) (cp : Checkpoint) : Except CheckpointError CrdtSessionState :=
  match codec.restoreCrdt cp with
  | .error err => .error err
  | .ok incoming => .ok (state.merge incoming)

theorem apply_newCrdtCheckpoint (state source : CrdtSessionState) :
    (codec.apply state (codec.newCrdtCheckpoint source)).map CrdtSessionState.observe =
      .ok (state.merge source).observe := by
  obtain ⟨decoded, hdecoded, hobserve⟩ := Option.map_eq_some_iff.mp (codec.lossless source)
  have hmerge : (state.merge decoded).observe = (state.merge source).observe := by
    funext wid
    rw [observe_merge, observe_merge, hobserve]
  simp [apply, restoreCrdt, newCrdtCheckpoint, hdecoded, Except.map, hmerge]

end Codec

/-- **Merging is a join**: idempotent and associative, and commutative exactly if equal content keys
mean equal contents. -/
theorem merge_is_join_iff (codec : Codec) (a b c : CrdtSessionState) :
    (a.merge a).observe = a.observe ∧
      ((a.merge b).merge c).observe = (a.merge (b.merge c)).observe ∧
      ((a.merge b).observe = (b.merge a).observe ↔ Compatible a b) ∧
      ((codec.apply a (codec.newCrdtCheckpoint b)).map CrdtSessionState.observe =
        (codec.apply b (codec.newCrdtCheckpoint a)).map CrdtSessionState.observe ↔
          Compatible a b) := by
  refine ⟨funext fun wid => ?_, funext fun wid => ?_, observe_merge_comm_iff a b, ?_⟩
  · rw [observe_merge]
    cases a.observe wid <;> simp [WindowView.join_self]
  · simp only [observe_merge]
    cases a.observe wid <;> cases b.observe wid <;> cases c.observe wid <;>
      simp [WindowView.join_assoc]
  · rw [codec.apply_newCrdtCheckpoint, codec.apply_newCrdtCheckpoint, Except.ok.injEq]
    exact observe_merge_comm_iff a b

/-- The name `a`, NUL, `b` with layout `c`, and `a` with `b`, NUL, `c`, have equal content keys. -/
theorem merge_order_decides_name :
    let a : CrdtSessionState := ⟨AList.singleton [119] ⟨[119], [97, 0, 98], [99], ∅, 1⟩, 1⟩
    let b : CrdtSessionState := ⟨AList.singleton [119] ⟨[119], [97], [98, 0, 99], ∅, 1⟩, 1⟩
    ((a.merge b).windows.lookup [119]).map (fun w => w.name) = some [97, 0, 98] ∧
      ((b.merge a).windows.lookup [119]).map (fun w => w.name) = some [97] := by
  decide

end HelixCluster.Session
