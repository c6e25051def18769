import HelixCluster.WebSocket.Frame

/-!
# Reassembly

A client sends a message in one or more data frames, with pings and pongs between them.
-/

namespace HelixCluster.WebSocket

open List

/-! ### The frames of a client -/

/-- The opcodes that a client uses here. -/
inductive Kind where
  | continuation
  | text
  | binary
  | ping
  | pong
  deriving DecidableEq

def Kind.code : Kind → UInt8
  | continuation => opContinuation
  | text => opText
  | binary => opBinary
  | ping => opPing
  | pong => opPong

/-- The three forms of a length. -/
inductive LengthForm where
  | short
  | medium
  | long
  deriving DecidableEq

namespace LengthForm

/-- The length can be written in the form. -/
def Fits : LengthForm → ℕ → Prop
  | short, n => n ≤ 125
  | medium, n => n < 2 ^ 16
  | long, n => n < 2 ^ 63

/-- The code in the header. -/
def code : LengthForm → ℕ → UInt8
  | short, n => UInt8.ofNat n
  | medium, _ => 126
  | long, _ => 127

/-- The bytes behind the header. -/
def bytes : LengthForm → ℕ → List UInt8
  | short, _ => []
  | medium, n => bigEndian 2 n
  | long, n => bigEndian 8 n

variable {n : ℕ} {form : LengthForm}

theorem toNat_code_short (h : short.Fits n) : (short.code n).toNat ≤ 125 := by
  have hn : n ≤ 125 := h
  show (UInt8.ofNat n).toNat ≤ 125
  rw [UInt8.toNat_ofNat']
  omega

theorem toNat_code_lt (h : form.Fits n) : (form.code n).toNat < 128 := by
  cases form with
  | short => exact (toNat_code_short h).trans_lt (by decide)
  | medium => exact (by decide : (126 : UInt8).toNat < 128)
  | long => exact (by decide : (127 : UInt8).toNat < 128)

theorem readLength_bytes (h : form.Fits n) (rest : List UInt8) :
    readLength (form.code n).toNat (form.bytes n ++ rest) = (rest, .ok n) := by
  cases form with
  | short =>
    have hn : n ≤ 125 := h
    have hcode : (short.code n).toNat = n := by
      show (UInt8.ofNat n).toNat = n
      rw [UInt8.toNat_ofNat']
      omega
    rw [hcode, readLength, if_neg (by omega), if_neg (by omega)]
    rfl
  | medium =>
    have hn : n < 256 ^ 2 := h
    have hcode : (medium.code n).toNat = 126 := rfl
    rw [hcode, readLength, if_pos rfl, bytes, readFull_append (length_bigEndian 2 n)]
    dsimp only
    rw [ofBigEndian_bigEndian hn]
  | long =>
    have hn : n < 2 ^ 63 := h
    have hcode : (long.code n).toNat = 127 := rfl
    rw [hcode, readLength, if_neg (by decide), if_pos rfl, bytes, readFull_append (length_bigEndian 8 n)]
    dsimp only
    rw [ofBigEndian_bigEndian (by omega), if_neg (by omega)]

end LengthForm

theorem maskBytes_maskBytes (data key : List UInt8) (offset : ℕ) :
    maskBytes (maskBytes data key offset) key offset = data := by
  unfold maskBytes
  rw [mapIdx_mapIdx]
  refine ext_getElem (by simp) fun i _ _ => ?_
  simp

/-- A frame of a client. Control frames are not fragmented and have short lengths. -/
structure ClientFrame where
  kind : Kind
  fin : Bool
  payload : List UInt8
  key : Fin 4 → UInt8
  form : LengthForm
  fits : form.Fits payload.length
  control : isControl kind.code = true → fin = true ∧ form = .short

variable {input : List UInt8}

namespace ClientFrame

/-- The mask key and the masked payload. -/
def maskedPayload (f : ClientFrame) : List UInt8 :=
  List.ofFn f.key ++ maskBytes f.payload (List.ofFn f.key) 0

def bytes (f : ClientFrame) : List UInt8 :=
  [if f.fin then f.kind.code ||| 0x80 else f.kind.code, f.form.code f.payload.length ||| 0x80] ++
    (f.form.bytes f.payload.length ++ f.maskedPayload)

/-- The frame as the server has it. -/
def frame (f : ClientFrame) : Frame := ⟨f.fin, f.kind.code, f.payload⟩

variable (f : ClientFrame)

theorem readPayload_maskedPayload (rest : List UInt8) :
    readPayload f.fin f.kind.code true f.payload.length (f.maskedPayload ++ rest) = (rest, .ok f.frame) := by
  have hkey : readFull 4 (f.maskedPayload ++ rest) =
      (maskBytes f.payload (List.ofFn f.key) 0 ++ rest, .ok (List.ofFn f.key)) := by
    rw [maskedPayload, append_assoc, readFull_append (length_ofFn)]
  have hlen : (maskBytes f.payload (List.ofFn f.key) 0).length = f.payload.length := length_mapIdx
  rw [readPayload, if_pos rfl, hkey]
  dsimp only
  by_cases hpos : f.payload.length > 0
  · rw [if_pos hpos, readFull_append hlen]
    dsimp only
    rw [if_pos rfl, maskBytes_maskBytes]
    rfl
  have hnil : f.payload = [] := eq_nil_of_length_eq_zero (by omega)
  rw [if_neg hpos, frame, hnil]
  rfl

theorem header_bits (kind : Kind) (fin : Bool) :
    ((if fin then kind.code ||| 0x80 else kind.code) &&& 0x80 ≠ 0 ↔ fin = true) ∧
      (if fin then kind.code ||| 0x80 else kind.code) &&& 0x70 = 0 ∧
      (if fin then kind.code ||| 0x80 else kind.code) &&& 0x0f = kind.code := by
  cases kind <;> cases fin <;> decide

theorem length_bits {b : UInt8} (h : b.toNat < 128) :
    (b ||| 0x80) &&& 0x80 ≠ 0 ∧ ((b ||| 0x80) &&& 0x7f).toNat = b.toNat := by
  rw [ne_eq, and_high_eq_zero_iff, toNat_and_low, toNat_or_high]
  omega

theorem readFrame_header {b₀ b₁ : UInt8} {rest : List UInt8} (maxMsg : ℤ)
    (hrsv : b₀ &&& 0x70 = 0) (hmasked : b₁ &&& 0x80 ≠ 0)
    (hcontrol : isControl (b₀ &&& 0x0f) = true → b₀ &&& 0x80 ≠ 0 ∧ (b₁ &&& 0x7f).toNat ≤ 125)
    (hlength : readLength (b₁ &&& 0x7f).toNat input = (rest, .ok n)) :
    readFrame (b₀ :: b₁ :: input) true maxMsg =
      if isControl (b₀ &&& 0x0f) = false ∧ maxMsg > 0 ∧ n > maxMsg then (rest, .error .messageTooLarge)
      else readPayload (b₀ &&& 0x80 ≠ 0) (b₀ &&& 0x0f) true n rest := by
  have hhdr : readFull 2 (b₀ :: b₁ :: input) = (input, .ok [b₀, b₁]) := by
    have hlen : [b₀, b₁].length = 2 := rfl
    exact readFull_append hlen input
  have hget₀ : [b₀, b₁].getD 0 0 = b₀ := rfl
  have hget₁ : [b₀, b₁].getD 1 0 = b₁ := rfl
  rw [readFrame, hhdr]
  dsimp only
  simp only [hget₀, hget₁]
  rw [if_neg (not_not.mpr hrsv), if_neg (fun h => h.2 (hcontrol h.1).1),
    if_neg (fun h => absurd (hcontrol h.1).2 (Nat.not_le.mpr h.2)), if_neg (fun h => h.2 hmasked),
    if_neg (fun h => h.1 trivial), hlength, decide_eq_true hmasked]
  simp only [Bool.not_eq_true]

theorem readFrame_bytes (maxMsg : ℤ) (rest : List UInt8) : readFrame (f.bytes ++ rest) true maxMsg =
      if isControl f.kind.code = false ∧ maxMsg > 0 ∧ f.payload.length > maxMsg then
        (f.maskedPayload ++ rest, .error .messageTooLarge) else (rest, .ok f.frame) := by
  obtain ⟨hfin, hrsv, hopcode⟩ := header_bits f.kind f.fin
  obtain ⟨hmasked, hcode⟩ := length_bits (LengthForm.toNat_code_lt f.fits)
  have hlength := LengthForm.readLength_bytes f.fits (f.maskedPayload ++ rest)
  rw [← hcode] at hlength
  have hread := readFrame_header maxMsg hrsv hmasked (fun hcontrol => by
    rw [hopcode] at hcontrol
    obtain ⟨hlast, hform⟩ := f.control hcontrol
    have hfits := f.fits
    rw [hform] at hfits
    refine ⟨hfin.mpr hlast, ?_⟩
    rw [hcode, hform]
    exact LengthForm.toNat_code_short hfits) hlength
  have hdecide : decide ((if f.fin then f.kind.code ||| 0x80 else f.kind.code) &&& 0x80 ≠ 0) = f.fin := by
    rw [Bool.eq_iff_iff, decide_eq_true_iff]
    exact hfin
  rw [hopcode, hdecide, readPayload_maskedPayload] at hread
  rw [bytes, append_assoc, append_assoc]
  exact hread

end ClientFrame

/-! ### Messages -/

/-- A ping or a pong. -/
structure Control where
  isPing : Bool
  payload : List UInt8
  key : Fin 4 → UInt8
  short : payload.length ≤ 125

/-- The frame of a ping or a pong. -/
def Control.frame (x : Control) : ClientFrame where
  kind := if x.isPing then .ping else .pong
  fin := true
  payload := x.payload
  key := x.key
  form := .short
  fits := x.short
  control _ := ⟨rfl, rfl⟩

/-- A part of a message, and the control frames in front of it. -/
structure Fragment where
  controls : List Control
  payload : List UInt8
  key : Fin 4 → UInt8
  form : LengthForm
  fits : form.Fits payload.length

/-- The kind of the first data frame of a message of the type, or of a later one. -/
def dataKind : Option MessageType → Kind
  | some .text => .text
  | some .binary => .binary
  | none => .continuation

theorem isControl_dataKind (o : Option MessageType) : isControl (dataKind o).code = false := by
  cases o with
  | none => rfl
  | some t => cases t <;> rfl

namespace Fragment

/-- The data frame of a fragment: the first one of a message of the type, or a later one. -/
def frame (g : Fragment) (o : Option MessageType) (fin : Bool) : ClientFrame where
  kind := dataKind o
  fin := fin
  payload := g.payload
  key := g.key
  form := g.form
  fits := g.fits
  control h := by
    rw [isControl_dataKind] at h
    cases h

/-- The bytes of a fragment, with the control frames in front of it. -/
def bytes (g : Fragment) (o : Option MessageType) (fin : Bool) : List UInt8 :=
  g.controls.flatMap (·.frame.bytes) ++ (g.frame o fin).bytes

end Fragment

/-- The bytes of a message in fragments, or of the rest of one. -/
def fragmentBytes (o : Option MessageType) (g : Fragment) : List Fragment → List UInt8
  | [] => g.bytes o true
  | h :: hs => g.bytes o false ++ fragmentBytes none h hs

/-- A message as it is sent: its fragments, the first of which gives the type. -/
structure Message where
  type : MessageType
  first : Fragment
  later : List Fragment

namespace Message

def bytes (m : Message) : List UInt8 := fragmentBytes (some m.type) m.first m.later

def payload (m : Message) : List UInt8 := (m.first :: m.later).flatMap (·.payload)

/-- The control frames in front of the fragments. -/
def controls (m : Message) : List Control := (m.first :: m.later).flatMap (·.controls)

end Message

/-- The answers to the pings. -/
def pongs (controls : List Control) : List UInt8 :=
  (controls.filter (·.isPing)).flatMap fun x => frameBytes true opPong x.payload

theorem pongs_append (xs ys : List Control) : pongs (xs ++ ys) = pongs xs ++ pongs ys := by
  rw [pongs, filter_append, flatMap_append]
  rfl

/-! ### One frame -/

namespace Conn

/-- The connection with other bytes to read. -/
def receiving (c : Conn) (input : List UInt8) : Conn := { c with input := input }

/-- The connection after it has written more. -/
def wrote (c : Conn) (bytes : List UInt8) : Conn := { c with output := c.output ++ bytes }

theorem wrote_wrote (c : Conn) (bs bs' : List UInt8) : (c.wrote bs).wrote bs' = c.wrote (bs ++ bs') := by
  simp [wrote]

theorem wrote_nil (c : Conn) : c.wrote [] = c := by
  simp [wrote]

variable {fr : Frame}

theorem readLoop_next {c d : Conn} {p p' : Partial} (frames : ℕ)
    (hread : readFrame c.input true c.maxMsg = (input, .ok fr))
    (hnext : (c.receiving input).handle p fr = (d, .next p')) :
    c.readLoop (frames + 1) p = d.readLoop frames p' := by
  have hnext' : { c with input := input }.handle p fr = (d, .next p') := hnext
  rw [readLoop, hread]
  dsimp only
  rw [hnext']

theorem readLoop_done {c d : Conn} {p : Partial} {r : Outcome} (frames : ℕ)
    (hread : readFrame c.input true c.maxMsg = (input, .ok fr))
    (hdone : (c.receiving input).handle p fr = (d, .done r)) :
    c.readLoop (frames + 1) p = some (d, r) := by
  have hdone' : { c with input := input }.handle p fr = (d, .done r) := hdone
  rw [readLoop, hread]
  dsimp only
  rw [hdone']

theorem isControl_control (x : Control) : isControl x.frame.kind.code = true := by
  unfold Control.frame
  dsimp only
  cases x.isPing <;> rfl

theorem handle_ping {c d : Conn} (hopcode : fr.opcode = opPing)
    (hpong : c.writeControl opPong fr.payload = (d, none)) (p : Partial) :
    c.handle p fr = (d, .next p) := by
  rw [handle, if_pos hopcode, hpong]

theorem handle_continuation {p : Partial} {t : MessageType} (hopcode : fr.opcode = opContinuation)
    (htype : p.dataType = some t) (c : Conn) : c.handle p fr = c.appendPayload p t fr := by
  rw [handle, hopcode, if_neg (by decide), if_neg (by decide), if_neg (by decide), if_neg (by decide),
    if_pos rfl, htype]

theorem handle_control {c : Conn} (hw : c.writable = true) (x : Control) (p : Partial) :
    c.handle p x.frame.frame = (c.wrote (pongs [x]), .next p) := by
  obtain ⟨isPing, payload, key, hshort⟩ := x
  cases isPing with
  | false =>
    show _ = (c.wrote [], Progress.next p)
    rw [wrote_nil]
    rfl
  | true =>
    have hpong : c.writeControl opPong payload = (c.wrote (frameBytes true opPong payload), none) := by
      rw [writeControl, if_neg (Nat.not_lt.mpr hshort), writeFrame, if_pos hw]
      rfl
    have hpongs : pongs [⟨true, payload, key, hshort⟩] = frameBytes true opPong payload :=
      append_nil _
    rw [hpongs]
    exact handle_ping rfl hpong p

theorem readLoop_control {c : Conn} (hw : c.writable = true) (x : Control) (frames : ℕ) (p : Partial)
    (rest : List UInt8) : (c.receiving (x.frame.bytes ++ rest)).readLoop (frames + 1) p =
      ((c.wrote (pongs [x])).receiving rest).readLoop frames p := by
  have hread := x.frame.readFrame_bytes c.maxMsg rest
  rw [isControl_control, if_neg (fun h => Bool.noConfusion h.1)] at hread
  exact readLoop_next frames hread (handle_control (c := c.receiving rest) hw x p)

theorem readLoop_controls {c : Conn} (hw : c.writable = true) (xs : List Control) (frames : ℕ)
    (p : Partial) (rest : List UInt8) :
    (c.receiving (xs.flatMap (·.frame.bytes) ++ rest)).readLoop (xs.length + frames) p =
      ((c.wrote (pongs xs)).receiving rest).readLoop frames p := by
  induction xs generalizing c with
  | nil =>
    show (c.receiving rest).readLoop (0 + frames) p = ((c.wrote []).receiving rest).readLoop frames p
    rw [Nat.zero_add, wrote_nil]
  | cons x xs ih =>
    have hpongs : pongs (x :: xs) = pongs [x] ++ pongs xs := pongs_append [x] xs
    rw [flatMap_cons, append_assoc, length_cons, Nat.succ_add, readLoop_control hw, hpongs,
      ← wrote_wrote]
    exact ih hw

/-- The loop waits for the first data frame of a message of the type, or for a later one. -/
def Awaiting (p : Partial) (t : MessageType) : Option MessageType → Prop
  | some t' => t' = t ∧ p.fragmented = false
  | none => p.dataType = some t

theorem handle_data {p : Partial} {t : MessageType} {o : Option MessageType} (h : Awaiting p t o)
    (g : Fragment) (fin : Bool) : ∃ p' : Partial, p'.msg = p.msg ∧
      ∀ c : Conn, c.handle p (g.frame o fin).frame = c.appendPayload p' t (g.frame o fin).frame := by
  cases o with
  | none =>
    have htype : p.dataType = some t := h
    exact ⟨p, rfl, fun c => handle_continuation rfl htype c⟩
  | some t' =>
    obtain ⟨rfl, hfragmented⟩ := h
    refine ⟨{ p with fragmented := true }, rfl, fun c => ?_⟩
    cases t' with
    | text => exact if_neg (Bool.eq_false_iff.mp hfragmented)
    | binary => exact if_neg (Bool.eq_false_iff.mp hfragmented)

/-! ### The fragments of a message -/

section Fragments

variable {p : Partial} {t : MessageType} {o : Option MessageType} {c : Conn} (g : Fragment)

theorem readFrame_within (hlimit : c.maxMsg ≤ 0 ∨ (p.msg ++ g.payload).length ≤ c.maxMsg) (fin : Bool)
    (rest : List UInt8) :
    readFrame ((g.frame o fin).bytes ++ rest) true c.maxMsg = (rest, .ok (g.frame o fin).frame) := by
  rw [length_append] at hlimit
  rw [ClientFrame.readFrame_bytes, if_neg]
  rintro ⟨-, hmax, hover⟩
  have hpayload : (g.payload.length : ℤ) > c.maxMsg := hover
  omega

variable (h : Awaiting p t o)
include h

theorem readLoop_last (hlimit : c.maxMsg ≤ 0 ∨ (p.msg ++ g.payload).length ≤ c.maxMsg) (frames : ℕ)
    (rest : List UInt8) : (c.receiving ((g.frame o true).bytes ++ rest)).readLoop (frames + 1) p =
      some (c.receiving rest, .ok (t, p.msg ++ g.payload)) := by
  obtain ⟨p', hmsg, hhandle⟩ := handle_data h g true
  refine readLoop_done frames (readFrame_within g hlimit true rest) ?_
  rw [← hmsg] at hlimit ⊢
  rw [hhandle]
  exact (if_neg fun hover => hlimit.elim hover.1.not_ge hover.2.not_ge).trans rfl

theorem readLoop_more (hlimit : c.maxMsg ≤ 0 ∨ (p.msg ++ g.payload).length ≤ c.maxMsg) :
    ∃ p' : Partial, Awaiting p' t none ∧ p'.msg = p.msg ++ g.payload ∧
      ∀ (frames : ℕ) (rest : List UInt8),
        (c.receiving ((g.frame o false).bytes ++ rest)).readLoop (frames + 1) p =
          (c.receiving rest).readLoop frames p' := by
  obtain ⟨p', hmsg, hhandle⟩ := handle_data h g false
  refine ⟨{ p' with msg := p'.msg ++ g.payload, dataType := some t }, rfl, by rw [hmsg], fun frames rest => ?_⟩
  refine readLoop_next frames (readFrame_within g hlimit false rest) ?_
  rw [← hmsg] at hlimit
  rw [hhandle]
  exact (if_neg fun hover => hlimit.elim hover.1.not_ge hover.2.not_ge).trans rfl

/-- A fragment over the limit is refused by its length, or once it has been appended. -/
theorem readLoop_over (hmax : 0 < c.maxMsg) (hover : c.maxMsg < (p.msg ++ g.payload).length) (fin : Bool)
    (frames : ℕ) (rest : List UInt8) :
    ∃ d, (c.receiving ((g.frame o fin).bytes ++ rest)).readLoop (frames + 1) p =
      some (d, .error .messageTooLarge) := by
  have hread := (g.frame o fin).readFrame_bytes c.maxMsg rest
  split at hread
  · rw [readLoop]
    dsimp only [receiving]
    rw [hread]
    exact ⟨_, rfl⟩
  obtain ⟨p', hmsg, hhandle⟩ := handle_data h g fin
  rw [← hmsg] at hover
  have hrefused : ∃ d, (c.receiving rest).appendPayload p' t (g.frame o fin).frame =
      (d, .done (.error .messageTooLarge)) :=
    ⟨_, if_pos ⟨hmax, hover⟩⟩
  obtain ⟨d, hd⟩ := hrefused
  refine ⟨d, readLoop_done frames hread ?_⟩
  rw [hhandle]
  exact hd

end Fragments

/-- The number of frames of a message. -/
def frameCount (g : Fragment) : List Fragment → ℕ
  | [] => g.controls.length + 1
  | h :: hs => g.controls.length + (1 + frameCount h hs)

/-- The loop reads the fragments up to the limit, from any state in which it waits for the first.
-/
theorem readLoop_fragments {c : Conn} (hw : c.writable = true) {p : Partial} {t : MessageType}
    {o : Option MessageType} (h : Awaiting p t o) (g : Fragment) (gs : List Fragment) (frames : ℕ)
    (rest : List UInt8) :
    let size := (p.msg ++ (g :: gs).flatMap (·.payload)).length
    let result := (c.receiving (fragmentBytes o g gs ++ rest)).readLoop (frameCount g gs + frames) p
    (c.maxMsg ≤ 0 ∨ size ≤ c.maxMsg → result = some
      ((c.wrote (pongs ((g :: gs).flatMap (·.controls)))).receiving rest,
        .ok (t, p.msg ++ (g :: gs).flatMap (·.payload)))) ∧
    (0 < c.maxMsg → c.maxMsg < size → ∃ d, result = some (d, .error .messageTooLarge)) := by
  induction gs generalizing c p o g with
  | nil =>
    rw [flatMap_singleton, flatMap_singleton, fragmentBytes, Fragment.bytes, append_assoc,
      frameCount, Nat.add_assoc, readLoop_controls hw, Nat.add_comm 1 frames]
    refine ⟨fun hlimit => ?_, fun hmax hover => ?_⟩
    · exact readLoop_last (c := c.wrote (pongs g.controls)) g h hlimit frames rest
    · exact readLoop_over (c := c.wrote (pongs g.controls)) g h hmax hover true frames rest
  | cons g' gs ih =>
    have hmore := readLoop_more (c := c.wrote (pongs g.controls)) g h
    rw [flatMap_cons (x := g), flatMap_cons (x := g), pongs_append, ← wrote_wrote, fragmentBytes,
      Fragment.bytes, frameCount, append_assoc, append_assoc, Nat.add_assoc, readLoop_controls hw,
      Nat.add_assoc, Nat.add_comm 1, ← append_assoc p.msg]
    by_cases hfirst : c.maxMsg ≤ 0 ∨ (p.msg ++ g.payload).length ≤ c.maxMsg
    · obtain ⟨p', hp', hmsg, hmore⟩ := hmore hfirst
      rw [hmore, ← hmsg]
      exact ih (c := c.wrote (pongs g.controls)) hw hp' g'
    · refine ⟨fun hlimit => ?_, fun hmax _ => ?_⟩
      · rw [length_append] at hlimit
        omega
      · exact readLoop_over (c := c.wrote (pongs g.controls)) g h hmax
          (lt_of_not_ge fun hle => hfirst (.inr hle)) false _ _

/-! ### ReadMessage -/

theorem length_frame_bytes (f : ClientFrame) : 0 < f.bytes.length := by
  rw [ClientFrame.bytes, length_append]
  exact Nat.add_pos_left (Nat.succ_pos 1) _

theorem length_le_controls (xs : List Control) : xs.length ≤ (xs.flatMap (·.frame.bytes)).length := by
  induction xs with
  | nil => exact Nat.le_refl _
  | cons x xs ih =>
    have hpos := length_frame_bytes x.frame
    rw [flatMap_cons, length_append, length_cons]
    omega

theorem frameCount_le (o : Option MessageType) (g : Fragment) (gs : List Fragment) :
    frameCount g gs ≤ (fragmentBytes o g gs).length := by
  induction gs generalizing o g with
  | nil =>
    have hpos := length_frame_bytes (g.frame o true)
    have hcontrols := length_le_controls g.controls
    rw [frameCount, fragmentBytes, Fragment.bytes, length_append]
    omega
  | cons g' gs ih =>
    have hpos := length_frame_bytes (g.frame o false)
    have hcontrols := length_le_controls g.controls
    have hlater := ih none g'
    rw [frameCount, fragmentBytes, Fragment.bytes, length_append, length_append]
    omega

theorem of_appendPayload_next {c d : Conn} {p p' : Partial} {t : MessageType}
    (h : c.appendPayload p t fr = (d, .next p')) (hmax : 0 < c.maxMsg) :
    p'.msg.length ≤ c.maxMsg := by
  unfold appendPayload at h
  dsimp only at h
  split at h
  · cases h
  next hlimit =>
  split at h
  · cases h
  · cases h
    exact not_lt.mp (not_and.mp hlimit hmax)

theorem of_handle_next {c d : Conn} {p p' : Partial} (h : c.handle p fr = (d, .next p'))
    (hmax : 0 < c.maxMsg) (hp : p.msg.length ≤ c.maxMsg) : p'.msg.length ≤ c.maxMsg := by
  unfold handle at h
  split at h
  · split at h <;> cases h
    exact hp
  split at h
  · cases h
    exact hp
  split at h
  · cases h
  split at h
  · split at h
    · cases h
    · exact of_appendPayload_next h hmax
  split at h
  · split at h
    · exact of_appendPayload_next h hmax
    · cases h
  · cases h

/-- The states that the loop of `ReadMessage` comes to. -/
inductive Reading (c : Conn) : Conn → Partial → Prop
  | start : Reading c c ⟨[], none, false⟩
  | next {d d' : Conn} {p p' : Partial} {input : List UInt8} {fr : Frame} (hreading : Reading c d p)
      (hread : readFrame d.input true d.maxMsg = (input, .ok fr))
      (hnext : (d.receiving input).handle p fr = (d', .next p')) : Reading c d' p'

namespace Reading

variable {c d : Conn} {p : Partial}

theorem maxMsg (h : Reading c d p) : d.maxMsg = c.maxMsg := by
  induction h with
  | start => rfl
  | @next d d' p p' input fr _ _ hnext ih =>
    have hsame := same_handle (d.receiving input) p fr
    rw [hnext] at hsame
    exact hsame.maxMsg.trans ih

theorem msg_length_le (h : Reading c d p) (hmax : 0 < c.maxMsg) : p.msg.length ≤ c.maxMsg := by
  induction h with
  | start => exact hmax.le
  | next hreading _ hnext ih =>
    rw [← hreading.maxMsg] at hmax ih ⊢
    have hstill := of_handle_next hnext
    exact hstill hmax ih

theorem payload_length_le (h : Reading c d p) (hmax : 0 < c.maxMsg)
    (hread : readFrame d.input true d.maxMsg = (input, .ok fr)) :
    fr.payload.length ≤ if isControl fr.opcode then 125 else c.maxMsg := by
  obtain ⟨-, hcontrol, hdata⟩ := of_readFrame_ok hread
  rw [h.maxMsg] at hdata
  split_ifs with hop
  · exact Int.ofNat_le.mpr (hcontrol hop)
  · exact hdata (Bool.eq_false_iff.mpr hop) hmax

end Reading

end Conn

/-- `ReadMessage` returns the message and answers the pings, or `ErrMessageTooLarge` with no more
than the limit held besides one frame. -/
theorem read_message (c : Conn) (m : Message) (behind : List UInt8) (hwritable : c.writable = true)
    (hinput : c.input = m.bytes ++ behind) :
    (c.maxMsg ≤ 0 ∨ m.payload.length ≤ c.maxMsg → c.readMessage =
        some ({ c with input := behind, output := c.output ++ pongs m.controls }, .ok (m.type, m.payload))) ∧
    (0 < c.maxMsg ∧ c.maxMsg < m.payload.length →
      (∃ d, c.readMessage = some (d, .error .messageTooLarge)) ∧
      ∀ d p, c.Reading d p → p.msg.length ≤ c.maxMsg ∧
        ∀ input fr, readFrame d.input true d.maxMsg = (input, .ok fr) →
          fr.payload.length ≤ if isControl fr.opcode then 125 else c.maxMsg) := by
  have hstart : Conn.Awaiting ⟨[], none, false⟩ m.type (some m.type) := ⟨rfl, rfl⟩
  have hc : c = c.receiving (m.bytes ++ behind) := by
    rw [← hinput]
    rfl
  have hframes : ∃ frames, c.input.length + 1 = Conn.frameCount m.first m.later + frames := by
    have hle : Conn.frameCount m.first m.later ≤ m.bytes.length := Conn.frameCount_le ..
    refine ⟨c.input.length + 1 - Conn.frameCount m.first m.later, ?_⟩
    rw [hinput, length_append]
    omega
  obtain ⟨frames, hframes⟩ := hframes
  have hread : c.readMessage = (c.receiving (m.bytes ++ behind)).readLoop
      (Conn.frameCount m.first m.later + frames) ⟨[], none, false⟩ := by
    rw [Conn.readMessage, hframes, ← hc]
  have hloop := Conn.readLoop_fragments hwritable hstart m.first m.later frames behind
  refine ⟨fun hlimit => ?_, fun hover => ⟨?_, fun d p hreading => ⟨?_, fun input fr hfr => ?_⟩⟩⟩
  · exact hread.trans (hloop.1 hlimit)
  · rw [hread]
    exact hloop.2 hover.1 hover.2
  · exact hreading.msg_length_le hover.1
  · exact hreading.payload_length_le hover.1 hfr

/-- The text `Hi` in two fragments, with a ping between them. -/
def greeting : Message where
  type := .text
  first := ⟨[], [0x48], ![1, 2, 3, 4], .short, (by decide : 1 ≤ 125)⟩
  later := [⟨[⟨true, [7], ![9, 8, 7, 6], by decide⟩], [0x69], ![5, 6, 7, 8], .medium, (by decide : 1 < 2 ^ 16)⟩]

theorem greeting_read : (⟨greeting.bytes, [], 2, true, false⟩ : Conn).readMessage =
        some (⟨[], frameBytes true opPong [7], 2, true, false⟩, .ok (.text, [0x48, 0x69])) ∧
      ∃ d, (⟨greeting.bytes, [], 1, true, false⟩ : Conn).readMessage = some (d, .error .messageTooLarge) :=
  ⟨(read_message ⟨greeting.bytes, [], 2, true, false⟩ greeting [] rfl (append_nil _).symm).1
      (Or.inr (by decide)),
    ((read_message ⟨greeting.bytes, [], 1, true, false⟩ greeting [] rfl (append_nil _).symm).2
      (by decide)).1⟩

end HelixCluster.WebSocket
