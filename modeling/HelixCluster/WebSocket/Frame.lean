import HelixCluster.Lib.Bytes
import HelixCluster.Lib.Text

/-!
# WebSocket frames

The frame codec of `pkg/websocket` and the connection on top of it.
-/

namespace HelixCluster.WebSocket

open List

inductive MessageType where
  | text
  | binary
  deriving DecidableEq

/-- The opcodes. -/
def opContinuation : UInt8 := 0x0
def opText : UInt8 := 0x1
def opBinary : UInt8 := 0x2
def opClose : UInt8 := 0x8
def opPing : UInt8 := 0x9
def opPong : UInt8 := 0xA

/-- The status codes that the connection sends by itself. -/
def closeProtocolError : ℤ := 1002
def closeNoStatusRcvd : ℤ := 1005
def closeMessageTooBig : ℤ := 1009

/-- The errors of the codec and the connection. -/
inductive Error where
  | eof
  | unexpectedEOF
  | reservedBitsSet
  | controlFrameTooLarge
  | unmaskedClientFrame
  | maskedServerFrame
  | messageTooLarge
  | closed (code : ℤ) (text : Str)
  | unknownOpcode (opcode : UInt8)
  | write
  deriving DecidableEq

structure Frame where
  fin : Bool
  opcode : UInt8
  payload : List UInt8
  deriving DecidableEq

def maskBytes (data key : List UInt8) (offset : ℕ) : List UInt8 :=
  data.mapIdx fun i b => b ^^^ key.getD ((offset + i) % 4) 0

/-- `io.ReadFull` for so many bytes: what is left of the input, and the bytes. -/
def readFull (n : ℕ) (input : List UInt8) : List UInt8 × Except Error (List UInt8) :=
  if n ≤ input.length then (input.drop n, .ok (input.take n))
  else ([], .error (if input.length = 0 then .eof else .unexpectedEOF))

/-- A frame is a control frame. -/
def isControl (opcode : UInt8) : Bool := opcode &&& 0x08 ≠ 0

/-- The end of `readFrame`: the mask key and the payload. -/
def readPayload (fin : Bool) (opcode : UInt8) (masked : Bool) (payloadLen : ℕ) (input : List UInt8) :
    List UInt8 × Except Error Frame :=
  match if masked then readFull 4 input else (input, .ok [0, 0, 0, 0]) with
  | (input, .error e) => (input, .error e)
  | (input, .ok key) =>
    match if payloadLen > 0 then readFull payloadLen input else (input, .ok []) with
    | (input, .error e) => (input, .error e)
    | (input, .ok payload) =>
      (input, .ok ⟨fin, opcode, if masked then maskBytes payload key 0 else payload⟩)

/-- The length of the payload, from the code in the header. -/
def readLength (lenCode : ℕ) (input : List UInt8) : List UInt8 × Except Error ℕ :=
  if lenCode = 126 then
    match readFull 2 input with
    | (input, .error e) => (input, .error e)
    | (input, .ok ext) => (input, .ok (ofBigEndian ext))
  else if lenCode = 127 then
    match readFull 8 input with
    | (input, .error e) => (input, .error e)
    | (input, .ok ext) =>
      if ofBigEndian ext > 2 ^ 63 - 1 then (input, .error .messageTooLarge)
      else (input, .ok (ofBigEndian ext))
  else (input, .ok lenCode)

/-- `readFrame`: what is left of the input, and the frame. -/
def readFrame (input : List UInt8) (isServer : Bool) (maxPayload : ℤ) :
    List UInt8 × Except Error Frame :=
  match readFull 2 input with
  | (input, .error e) => (input, .error e)
  | (input, .ok hdr) =>
    let hdr₀ := hdr.getD 0 0
    let hdr₁ := hdr.getD 1 0
    let fin := hdr₀ &&& 0x80 ≠ 0
    let opcode := hdr₀ &&& 0x0f
    let masked := hdr₁ &&& 0x80 ≠ 0
    let lenCode := (hdr₁ &&& 0x7f).toNat
    if hdr₀ &&& 0x70 ≠ 0 then (input, .error .reservedBitsSet)
    else if isControl opcode ∧ ¬fin then (input, .error .controlFrameTooLarge)
    else if isControl opcode ∧ lenCode > 125 then (input, .error .controlFrameTooLarge)
    else if isServer ∧ ¬masked then (input, .error .unmaskedClientFrame)
    else if ¬isServer ∧ masked then (input, .error .maskedServerFrame)
    else
      match readLength lenCode input with
      | (input, .error e) => (input, .error e)
      | (input, .ok payloadLen) =>
        if ¬isControl opcode ∧ maxPayload > 0 ∧ payloadLen > maxPayload then
          (input, .error .messageTooLarge)
        else readPayload fin opcode masked payloadLen input

/-- The bytes of an unmasked frame, as `writeFrame` writes them. -/
def frameBytes (fin : Bool) (opcode : UInt8) (payload : List UInt8) : List UInt8 :=
  let b₀ := if fin then (opcode &&& 0x0f) ||| 0x80 else opcode &&& 0x0f
  let n := payload.length
  (if n ≤ 125 then [b₀, UInt8.ofNat n]
  else if n ≤ 0xFFFF then b₀ :: 126 :: bigEndian 2 n
  else b₀ :: 127 :: bigEndian 8 n) ++ payload

/-- `Conn`, with what comes in and what has gone out. Writes succeed as long as the peer takes them. -/
structure Conn where
  input : List UInt8
  output : List UInt8
  maxMsg : ℤ
  writable : Bool
  closeSent : Bool

namespace Conn

def writeFrame (c : Conn) (fin : Bool) (opcode : UInt8) (payload : List UInt8) : Conn × Option Error :=
  if c.writable then ({ c with output := c.output ++ frameBytes fin opcode payload }, none)
  else (c, some .write)

def writeControl (c : Conn) (opcode : UInt8) (payload : List UInt8) : Conn × Option Error :=
  if payload.length > 125 then (c, some .controlFrameTooLarge) else c.writeFrame true opcode payload

def sendClose (c : Conn) (code : ℤ) (reason : Str) : Conn :=
  if c.closeSent then c
  else
    let cc := if code < 0 then 0 else if code > 0xffff then 0xffff else code.toNat
    ({ c with closeSent := true }.writeFrame true opClose ((bigEndian 2 cc ++ reason).take 125)).1

end Conn

/-! ### ReadMessage -/

/-- The variables of the loop: the message so far, `msgType` once `haveDataType`, and `fragmented`. -/
structure Partial where
  msg : List UInt8
  dataType : Option MessageType
  fragmented : Bool

/-- What `ReadMessage` returns. -/
abbrev Outcome := Except Error (MessageType × List UInt8)

/-- After a frame the loop goes on or returns. -/
inductive Progress where
  | next (p : Partial)
  | done (r : Outcome)

namespace Conn

/-- The end of the two cases for data frames; the first one sets `fragmented` if the loop goes on.
-/
def appendPayload (c : Conn) (p : Partial) (t : MessageType) (fr : Frame) : Conn × Progress :=
  let msg := p.msg ++ fr.payload
  if c.maxMsg > 0 ∧ msg.length > c.maxMsg then
    (c.sendClose closeMessageTooBig (literal "message too big"), .done (.error .messageTooLarge))
  else if fr.fin then (c, .done (.ok (t, msg)))
  else (c, .next { p with msg := msg, dataType := some t })

/-- The cases of the loop of `ReadMessage`. -/
def handle (c : Conn) (p : Partial) (fr : Frame) : Conn × Progress :=
  if fr.opcode = opPing then
    match c.writeControl opPong fr.payload with
    | (c, some e) => (c, .done (.error e))
    | (c, none) => (c, .next p)
  else if fr.opcode = opPong then (c, .next p)
  else if fr.opcode = opClose then
    let code := if fr.payload.length ≥ 2 then (ofBigEndian (fr.payload.take 2) : ℤ) else closeNoStatusRcvd
    let reason := if fr.payload.length ≥ 2 then fr.payload.drop 2 else []
    (c.sendClose code [], .done (.error (.closed code reason)))
  else if fr.opcode = opText ∨ fr.opcode = opBinary then
    if p.fragmented then
      (c.sendClose closeProtocolError (literal "unexpected data frame"), .done (.error .reservedBitsSet))
    else
      c.appendPayload { p with fragmented := true } (if fr.opcode = opText then .text else .binary) fr
  else if fr.opcode = opContinuation then
    match p.dataType with
    | some t => c.appendPayload p t fr
    | none =>
      (c.sendClose closeProtocolError (literal "continuation without start"),
        .done (.error .reservedBitsSet))
  else
    (c.sendClose closeProtocolError (literal "unknown opcode"), .done (.error (.unknownOpcode fr.opcode)))

/-- What is sent when a frame cannot be read. -/
def readFailed (c : Conn) (e : Error) : Conn :=
  if e = .messageTooLarge then c.sendClose closeMessageTooBig (literal "message too big")
  else if e = .unmaskedClientFrame ∨ e = .reservedBitsSet ∨ e = .controlFrameTooLarge then
    c.sendClose closeProtocolError (literal "protocol error")
  else c

/-- The loop of `ReadMessage`, for so many frames at most. -/
def readLoop : ℕ → Conn → Partial → Option (Conn × Outcome)
  | 0, _, _ => none
  | frames + 1, c, p =>
    match readFrame c.input true c.maxMsg with
    | (input, .error e) => some ({ c with input := input }.readFailed e, .error e)
    | (input, .ok fr) =>
      match { c with input := input }.handle p fr with
      | (c, .done r) => some (c, r)
      | (c, .next p) => readLoop frames c p

def readMessage (c : Conn) : Option (Conn × Outcome) :=
  c.readLoop (c.input.length + 1) ⟨[], none, false⟩

end Conn

/-! ### What is read -/

theorem readFull_append {n : ℕ} {bs : List UInt8} (h : bs.length = n) (rest : List UInt8) :
    readFull n (bs ++ rest) = (rest, .ok bs) := by
  subst h
  rw [readFull, if_pos (by simp), drop_left, take_left]

variable {input rest : List UInt8}

theorem of_readFull_ok {n : ℕ} {bs : List UInt8} (h : readFull n input = (rest, .ok bs)) :
    input = bs ++ rest ∧ bs.length = n := by
  unfold readFull at h
  split at h
  · next hle =>
    cases h
    exact ⟨(take_append_drop n input).symm, by rw [length_take]; omega⟩
  · cases h

theorem of_readLength_ok {lenCode n : ℕ} (h : readLength lenCode input = (rest, .ok n)) :
    rest.length ≤ input.length ∧ (lenCode ≤ 125 → n = lenCode) := by
  unfold readLength at h
  split at h
  · next hcode =>
    split at h
    · cases h
    · next hread =>
      cases h
      rw [(of_readFull_ok hread).1, length_append]
      omega
  split at h
  · next hcode =>
    split at h
    · cases h
    · next hread =>
      split at h
      · cases h
      cases h
      rw [(of_readFull_ok hread).1, length_append]
      omega
  · cases h
    exact ⟨Nat.le_refl _, fun _ => rfl⟩

theorem of_readPayload_ok {fin : Bool} {opcode : UInt8} {masked : Bool} {payloadLen : ℕ}
    {fr : Frame} (h : readPayload fin opcode masked payloadLen input = (rest, .ok fr)) :
    rest.length ≤ input.length ∧ fr.opcode = opcode ∧ fr.payload.length = payloadLen := by
  have hkey : ∀ {input rest key : List UInt8},
      (if masked then readFull 4 input else (input, .ok [0, 0, 0, 0])) = (rest, .ok key) →
        rest.length ≤ input.length := by
    intro input rest key h
    split at h
    · rw [(of_readFull_ok h).1, length_append]
      omega
    · cases h
      exact Nat.le_refl _
  have hbytes : ∀ {input rest payload : List UInt8},
      (if payloadLen > 0 then readFull payloadLen input else (input, .ok [])) = (rest, .ok payload) →
        rest.length ≤ input.length ∧ payload.length = payloadLen := by
    intro input rest payload h
    split at h
    · obtain ⟨hinput, hlen⟩ := of_readFull_ok h
      rw [hinput, length_append]
      omega
    · cases h
      exact ⟨Nat.le_refl _, by simp only [length_nil]; omega⟩
  unfold readPayload at h
  split at h
  · cases h
  · next hreadKey =>
    split at h
    · cases h
    · next hreadBytes =>
      cases h
      obtain ⟨hle, hlen⟩ := hbytes hreadBytes
      refine ⟨hle.trans (hkey hreadKey), rfl, ?_⟩
      dsimp only
      split
      · rw [maskBytes, length_mapIdx, hlen]
      · exact hlen

theorem of_readFrame_ok {isServer : Bool} {maxPayload : ℤ} {fr : Frame}
    (h : readFrame input isServer maxPayload = (rest, .ok fr)) :
    rest.length < input.length ∧ (isControl fr.opcode = true → fr.payload.length ≤ 125) ∧
      (isControl fr.opcode = false → 0 < maxPayload → fr.payload.length ≤ maxPayload) := by
  unfold readFrame at h
  split at h
  · cases h
  next input₁ hdr hhdr =>
  dsimp only at h
  split at h
  · cases h
  split at h
  · cases h
  split at h
  · cases h
  next hshort =>
  split at h
  · cases h
  split at h
  · cases h
  split at h
  · cases h
  next input₂ payloadLen hlength =>
  split at h
  · cases h
  next hlimit =>
  obtain ⟨hinput, hhdrLen⟩ := of_readFull_ok hhdr
  obtain ⟨hle₂, hcode⟩ := of_readLength_ok hlength
  obtain ⟨hle, hopcode, hlen⟩ := of_readPayload_ok h
  rw [hopcode, hlen]
  refine ⟨?_, fun hcontrol => ?_, fun hdata hmax => ?_⟩
  · rw [hinput, length_append]
    omega
  · have hcodeLe := not_and.mp hshort hcontrol
    rw [hcode (by omega)]
    omega
  · by_contra hover
    exact hlimit ⟨Bool.eq_false_iff.mp hdata, hmax, by omega⟩

/-! ### The loop ends -/

namespace Conn

/-- Handling a frame changes neither the input nor the limit. -/
structure Same (c d : Conn) : Prop where
  input : d.input = c.input
  maxMsg : d.maxMsg = c.maxMsg

theorem same_writeFrame (c : Conn) (fin : Bool) (opcode : UInt8) (payload : List UInt8) :
    Same c (c.writeFrame fin opcode payload).1 := by
  unfold writeFrame
  split <;> exact ⟨rfl, rfl⟩

theorem same_writeControl (c : Conn) (opcode : UInt8) (payload : List UInt8) :
    Same c (c.writeControl opcode payload).1 := by
  unfold writeControl
  split
  · exact ⟨rfl, rfl⟩
  · exact same_writeFrame ..

theorem same_sendClose (c : Conn) (code : ℤ) (reason : Str) : Same c (c.sendClose code reason) := by
  unfold sendClose
  split
  · exact ⟨rfl, rfl⟩
  · obtain ⟨hinput, hmax⟩ := same_writeFrame { c with closeSent := true } true opClose _
    exact ⟨hinput, hmax⟩

theorem same_appendPayload (c : Conn) (p : Partial) (t : MessageType) (fr : Frame) :
    Same c (c.appendPayload p t fr).1 := by
  unfold appendPayload
  dsimp only
  split
  · exact same_sendClose ..
  · split <;> exact ⟨rfl, rfl⟩

theorem same_handle (c : Conn) (p : Partial) (fr : Frame) : Same c (c.handle p fr).1 := by
  unfold handle
  split
  · have hpong := same_writeControl c opPong fr.payload
    split
    · next heq =>
      rw [heq] at hpong
      exact hpong
    · next heq =>
      rw [heq] at hpong
      exact hpong
  split
  · exact ⟨rfl, rfl⟩
  split
  · exact same_sendClose ..
  split
  · split
    · exact same_sendClose ..
    · exact same_appendPayload ..
  split
  · split
    · exact same_appendPayload ..
    · exact same_sendClose ..
  · exact same_sendClose ..

end Conn

end HelixCluster.WebSocket
