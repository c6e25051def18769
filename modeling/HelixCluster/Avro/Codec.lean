import HelixCluster.Lib.GoMap
import HelixCluster.Lib.Text
import HelixCluster.Lib.Varint

/-!
# The Avro codec

The Avro subset of `pkg/events`: records of primitive fields, behind a header with the fingerprint
of the writer's schema.
-/

namespace HelixCluster.Avro

/-- A value of the type `any`. Floating-point numbers are given by their bits. -/
inductive Value where
  | string (s : Str)
  | bytes (b : List UInt8)
  | int (n : Int64)
  | int32 (n : Int32)
  | int64 (n : Int64)
  | uint32 (n : UInt32)
  | float64 (bits : UInt64)
  | float32 (bits : UInt32)
  | bool (b : Bool)
  | other (typeName : Str)
  deriving DecidableEq

/-- `AvroType`, with any other text that a schema may have in its place. -/
inductive AvroType where
  | string
  | long
  | int
  | boolean
  | bytes
  | double
  | unsupported (text : Str)
  deriving DecidableEq

def AvroType.text : AvroType → Str
  | string => literal "string"
  | long => literal "long"
  | int => literal "int"
  | boolean => literal "boolean"
  | bytes => literal "bytes"
  | double => literal "double"
  | unsupported text => text

/-- `AvroField`; the default is what `HasDefault` and `Default` say. -/
structure AvroField where
  name : Str
  type : AvroType
  default : Option Value
  deriving DecidableEq

/-- `AvroSchema`. A field takes 56 bytes in memory, which bounds their number. -/
structure AvroSchema where
  name : Str
  fields : List AvroField
  fits : fields.length < 2 ^ 58
  deriving DecidableEq

/-- Why a value is not encoded or decoded. -/
inductive ValueError where
  | wantString (got : Value)
  | wantBytes (got : Value)
  | wantInteger (got : Value)
  | wantBool (got : Value)
  | wantFloat64 (got : Value)
  | intRange (n : Int64)
  | unsupportedType (text : Str)
  | truncatedBoolean
  | invalidBoolean (b : UInt8)
  | truncatedDouble
  | varint (e : VarintError)
  | negativeLength (n : Int64)
  | lengthExceeds (n : Int64) (remaining : ℤ)
  deriving DecidableEq

/-- The errors of the codec, with the values that their texts name. -/
inductive Error where
  | missingField (schema field : Str)
  | encodeField (schema field : Str) (e : ValueError)
  | payloadTooShort (len : ℕ)
  | badMarker (b₀ b₁ : UInt8)
  | unknownFingerprint (fp : UInt64)
  | decodeField (field : Str) (e : ValueError)
  | trailingBytes (count : ℤ)
  | notResolvable (field : Str)
  deriving DecidableEq

/-- A call ends with an error, or it panics. -/
inductive Fault (ε : Type) where
  | error (e : ε)
  | panic
  deriving DecidableEq

/-! ### Fingerprints -/

def AvroSchema.canonicalForm (s : AvroSchema) : Str :=
  literal "\x7b\"name\":\"" ++ s.name ++ literal "\",\"type\":\"record\",\"fields\":[" ++
  join 44 (s.fields.map fun f =>
    literal "\x7b\"name\":\"" ++ f.name ++ literal "\",\"type\":\"" ++ f.type.text ++ literal "\"\x7d") ++
  literal "]\x7d"

/-- An entry of `crc64AvroTable`. -/
def crc64AvroEntry (i : UInt8) : UInt64 :=
  (List.range 8).foldl (fun fp _ => (fp >>> 1) ^^^ (0xc15d213aa4d7a795 &&& -(fp &&& 1))) i.toUInt64

def crc64Avro (buf : List UInt8) : UInt64 :=
  buf.foldl (fun fp b => (fp >>> 8) ^^^ crc64AvroEntry ((fp &&& 0xff).toUInt8 ^^^ b)) 0xc15d213aa4d7a795

def AvroSchema.fingerprint (s : AvroSchema) : UInt64 := crc64Avro s.canonicalForm

abbrev SchemaRegistry := GoMap UInt64 AvroSchema

def SchemaRegistry.register (r : SchemaRegistry) (s : AvroSchema) : SchemaRegistry :=
  r.insert s.fingerprint s

/-! ### Encoding -/

def encodeBytesLike (b : List UInt8) : List UInt8 := writeVarint (Int64.ofNat b.length) ++ b

def toInt64 : Value → Option Int64
  | .int n => some n
  | .int32 n => some n.toInt64
  | .int64 n => some n
  | .uint32 n => some n.toUInt64.toInt64
  | _ => none

/-- The conversion of a `float32` to a `float64`, on the bits of the two. -/
def float32ToFloat64 (bits : UInt32) : UInt64 :=
  let sign := bits.toNat / 2 ^ 31
  let exponent := bits.toNat / 2 ^ 23 % 2 ^ 8
  let fraction := bits.toNat % 2 ^ 23
  let magnitude :=
    if exponent = 255 then
      -- infinities, and NaNs, which become quiet
      2047 * 2 ^ 52 + if fraction = 0 then 0 else fraction * 2 ^ 29 ||| 2 ^ 51
    else if exponent = 0 then
      if fraction = 0 then 0
      else (Nat.log2 fraction + 874) * 2 ^ 52 +
        (fraction - 2 ^ Nat.log2 fraction) * 2 ^ (52 - Nat.log2 fraction)
    else (exponent + 896) * 2 ^ 52 + fraction * 2 ^ 29
  UInt64.ofNat (sign * 2 ^ 63 + magnitude)

def toFloat64 : Value → Option UInt64
  | .float64 bits => some bits
  | .float32 bits => some (float32ToFloat64 bits)
  | _ => none

def encodeValue (t : AvroType) (v : Value) : Except ValueError (List UInt8) :=
  match t with
  | .string =>
    match v with
    | .string s => .ok (encodeBytesLike s)
    | v => .error (.wantString v)
  | .bytes =>
    match v with
    | .bytes b => .ok (encodeBytesLike b)
    | v => .error (.wantBytes v)
  | .long =>
    match toInt64 v with
    | some n => .ok (writeVarint n)
    | none => .error (.wantInteger v)
  | .int =>
    match toInt64 v with
    | some n => if n > 2147483647 ∨ n < -2147483648 then .error (.intRange n) else .ok (writeVarint n)
    | none => .error (.wantInteger v)
  | .boolean =>
    match v with
    | .bool b => .ok (if b then [1] else [0])
    | v => .error (.wantBool v)
  | .double =>
    match toFloat64 v with
    | some bits => .ok (littleEndian 8 bits.toNat)
    | none => .error (.wantFloat64 v)
  | .unsupported text => .error (.unsupportedType text)

def encodeBody (schema : Str) (record : GoMap Str Value) :
    List AvroField → Except Error (List UInt8)
  | [] => .ok []
  | f :: fs =>
    match record.lookup f.name with
    | none => .error (.missingField schema f.name)
    | some v =>
      match encodeValue f.type v with
      | .error e => .error (.encodeField schema f.name e)
      | .ok enc => (encodeBody schema record fs).map (enc ++ ·)

/-- The header of a payload: `avroSingleObjectMagic` and the fingerprint. -/
def header (fp : UInt64) : List UInt8 := 0xC3 :: 0x01 :: littleEndian 8 fp.toNat

def avroEncode (schema : AvroSchema) (record : GoMap Str Value) : Except Error (List UInt8) :=
  (encodeBody schema.name record schema.fields).map (header schema.fingerprint ++ ·)

/-! ### Decoding -/

/-- `data[i]`. -/
def index {ε : Type} (data : List UInt8) (i : ℕ) : Except (Fault ε) UInt8 :=
  match data[i]? with
  | some b => .ok b
  | none => .error .panic

/-- `data[lo:hi]`. -/
def slice {ε : Type} (data : List UInt8) (lo hi : ℤ) : Except (Fault ε) (List UInt8) :=
  if 0 ≤ lo ∧ lo ≤ hi ∧ hi ≤ data.length then .ok ((data.drop lo.toNat).take (hi - lo).toNat)
  else .error .panic

/-- `copy` into a new slice of a given length. -/
def copyInto (len : ℕ) (src : List UInt8) : List UInt8 := src.take len ++ List.replicate (len - src.length) 0

/-- `decodeBytesLike`: the bytes, and the number of bytes read. -/
def decodeBytesLike (data : List UInt8) : Except (Fault ValueError) (List UInt8 × ℤ) :=
  match readVarint data with
  | .error e => .error (.error (.varint e))
  | .ok (n, adv) =>
    if n < 0 then .error (.error (.negativeLength n))
    else
      -- the sum of a position and a length from the payload may overflow
      let stop := (Int64.ofNat adv + n).toInt
      if stop > data.length ∨ n.toInt > data.length then
        .error (.error (.lengthExceeds n (data.length - adv)))
      else (slice data adv stop).map fun src => (copyInto n.toInt.toNat src, stop)

/-- `decodeValue`: the value, and the number of bytes read. -/
def decodeValue (t : AvroType) (data : List UInt8) : Except (Fault ValueError) (Value × ℤ) :=
  match t with
  | .string => (decodeBytesLike data).map fun r => (.string r.1, r.2)
  | .bytes => (decodeBytesLike data).map fun r => (.bytes r.1, r.2)
  | .long | .int =>
    match readVarint data with
    | .error e => .error (.error (.varint e))
    | .ok (n, adv) => .ok (.int64 n, adv)
  | .boolean =>
    if data.length < 1 then .error (.error .truncatedBoolean)
    else
      match index data 0 with
      | .error e => .error e
      | .ok b =>
        if b = 0 then .ok (.bool false, 1)
        else if b = 1 then .ok (.bool true, 1)
        else .error (.error (.invalidBoolean b))
  | .double =>
    if data.length < 8 then .error (.error .truncatedDouble)
    else (slice data 0 8).map fun bs => (.float64 (UInt64.ofNat (ofLittleEndian bs)), 8)
  | .unsupported text => .error (.error (.unsupportedType text))

/-- An error of a field. -/
def Fault.inField (field : Str) : Fault ValueError → Fault Error
  | .error e => .error (.decodeField field e)
  | .panic => .panic

/-- The loop over the fields of the writer: their values, and the position behind them. -/
def decodeFields (data : List UInt8) :
    List AvroField → ℤ → GoMap Str Value → Except (Fault Error) (GoMap Str Value × ℤ)
  | [], pos, written => .ok (written, pos)
  | f :: fs, pos, written =>
    match slice data pos data.length with
    | .error e => .error e
    | .ok rest =>
      match decodeValue f.type rest with
      | .error e => .error (e.inField f.name)
      | .ok (v, n) => decodeFields data fs (pos + n) (written.insert f.name v)

/-- The loop over the fields of the reader. -/
def resolve (written : GoMap Str Value) :
    List AvroField → GoMap Str Value → Except Error (GoMap Str Value)
  | [], out => .ok out
  | rf :: rfs, out =>
    match written.lookup rf.name with
    | some v => resolve written rfs (out.insert rf.name v)
    | none =>
      match rf.default with
      | none => .error (.notResolvable rf.name)
      | some v => resolve written rfs (out.insert rf.name v)

/-- The body of a payload, under the schema of its writer. -/
def decodeBody (data : List UInt8) (writer reader : AvroSchema) :
    Except (Fault Error) (GoMap Str Value) :=
  match decodeFields data writer.fields 10 ∅ with
  | .error e => .error e
  | .ok (written, pos) =>
    if pos ≠ data.length then .error (.error (.trailingBytes (data.length - pos)))
    else (resolve written reader.fields ∅).mapError .error

def avroDecode (data : List UInt8) (registry : SchemaRegistry) (reader : AvroSchema) :
    Except (Fault Error) (GoMap Str Value) :=
  if data.length < 10 then .error (.error (.payloadTooShort data.length))
  else do
    let b₀ ← index data 0
    let b₁ ← index data 1
    if b₀ ≠ 0xC3 ∨ b₁ ≠ 0x01 then .error (.error (.badMarker b₀ b₁))
    else
      let bs ← slice data 2 10
      match registry.lookup (UInt64.ofNat (ofLittleEndian bs)) with
      | none => .error (.error (.unknownFingerprint (UInt64.ofNat (ofLittleEndian bs))))
      | some writer => decodeBody data writer reader

/-! ### The types of the values -/

/-- The Go types that stand for the Avro types. -/
inductive GoType where
  | string
  | bytes
  | int64
  | bool
  | float64
  deriving DecidableEq

def AvroType.goType : AvroType → Option GoType
  | string => some .string
  | bytes => some .bytes
  | long => some .int64
  | int => some .int64
  | boolean => some .bool
  | double => some .float64
  | unsupported _ => none

def Value.goType : Value → Option GoType
  | string _ => some .string
  | bytes _ => some .bytes
  | int64 _ => some .int64
  | bool _ => some .bool
  | float64 _ => some .float64
  | _ => none

/-- An integer in the range of 32 bits. -/
def Value.InRange : Value → Prop
  | int64 n => -2147483648 ≤ n ∧ n ≤ 2147483647
  | _ => True

/-- The value has the Go type for the Avro type, and an int is in the range. -/
structure HasType (t : AvroType) (v : Value) : Prop where
  supported : t.goType ≠ none
  goType : v.goType = t.goType
  inRange : t = .int → v.InRange

instance decidableInRange : (v : Value) → Decidable v.InRange
  | .int64 n => inferInstanceAs (Decidable (-2147483648 ≤ n ∧ n ≤ 2147483647))
  | .string _ | .bytes _ | .int _ | .int32 _ | .uint32 _ | .float64 _ | .float32 _ | .bool _ | .other _ =>
    isTrue trivial

theorem hasType_iff {t : AvroType} {v : Value} :
    t.goType ≠ none ∧ v.goType = t.goType ∧ (t = .int → v.InRange) ↔ HasType t v :=
  ⟨fun h => ⟨h.1, h.2.1, h.2.2⟩, fun h => ⟨h.supported, h.goType, h.inRange⟩⟩

instance decidableHasType (t : AvroType) (v : Value) : Decidable (HasType t v) :=
  decidable_of_iff _ hasType_iff

end HelixCluster.Avro
