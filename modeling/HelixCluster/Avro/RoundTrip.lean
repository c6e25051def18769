import HelixCluster.Avro.Codec
import HelixCluster.Lib.GoInt

/-!
# The round trip

What `AvroEncode` writes for a well-typed record, `AvroDecode` reads back: the values of the fields
that writer and reader share, and the defaults of the reader's other fields
(`avroDecode_avroEncode`).
-/

namespace HelixCluster.Avro

open List

/-! ### Slices -/

variable {ε : Type}

theorem slice_append (before data : List UInt8) :
    slice (before ++ data) before.length (before ++ data).length = (.ok data : Except (Fault ε) _) := by
  have hlen : ((before ++ data).length - before.length : ℤ) = data.length := by
    rw [length_append]
    omega
  rw [slice, if_pos ⟨by omega, by rw [length_append]; omega, le_refl _⟩, hlen, Int.toNat_natCast,
    Int.toNat_natCast, drop_left, take_length]

theorem slice_middle (before data behind : List UInt8) (lo hi : ℤ) (hlo : lo = before.length)
    (hhi : hi = before.length + data.length) :
    slice (before ++ data ++ behind) lo hi = (.ok data : Except (Fault ε) _) := by
  subst hlo hhi
  rw [slice, if_pos ⟨by omega, by omega, by simp⟩, Int.toNat_natCast, add_sub_cancel_left,
    Int.toNat_natCast, append_assoc, drop_left, take_left]

/-! ### One value -/

theorem decodeBytesLike_encodeBytesLike (b rest : List UInt8)
    (hfits : (encodeBytesLike b ++ rest).length < 2 ^ 63) :
    decodeBytesLike (encodeBytesLike b ++ rest) = .ok (b, ((encodeBytesLike b).length : ℕ)) := by
  have hlen : (encodeBytesLike b).length = (writeVarint (Int64.ofNat b.length)).length + b.length := by
    rw [encodeBytesLike, length_append]
  rw [length_append] at hfits
  have hn : (Int64.ofNat b.length).toInt = b.length := Int64.toInt_ofNat_of_lt (by omega)
  have hadv : (Int64.ofNat (writeVarint (Int64.ofNat b.length)).length).toInt =
      (writeVarint (Int64.ofNat b.length)).length := Int64.toInt_ofNat_of_lt (by omega)
  have hstop : (Int64.ofNat (writeVarint (Int64.ofNat b.length)).length + Int64.ofNat b.length).toInt =
      (encodeBytesLike b).length := by
    rw [toInt_add_of_bounds (by omega) (by omega), hadv, hn, hlen]
    omega
  have hnonneg : ¬Int64.ofNat b.length < 0 := by
    rw [Int64.lt_iff_toInt_lt, hn]
    exact Int.not_lt.mpr (Int.natCast_nonneg _)
  have hslice := slice_middle (ε := ValueError) (writeVarint (Int64.ofNat b.length)) b rest _ _ rfl rfl
  rw [decodeBytesLike]
  conv in readVarint _ => rw [encodeBytesLike, append_assoc, readVarint_writeVarint]
  dsimp only
  rw [if_neg hnonneg, hstop, hn, if_neg (by rw [length_append]; omega), Int.toNat_natCast]
  rw [encodeBytesLike] at hlen ⊢
  rw [hlen]
  push_cast at hslice ⊢
  rw [hslice]
  show Except.ok (copyInto b.length b, _) = _
  rw [copyInto, take_length, Nat.sub_self, replicate_zero, append_nil]

variable {v : Value}

theorem decodeValue_encodeValue {t : AvroType} (h : HasType t v) :
    ∃ enc, encodeValue t v = .ok enc ∧ ∀ rest, (enc ++ rest).length < 2 ^ 63 →
      decodeValue t (enc ++ rest) = .ok (v, (enc.length : ℕ)) := by
  cases t with
  | string =>
    cases v with
    | string s =>
      refine ⟨_, rfl, fun rest hfits => ?_⟩
      rw [decodeValue, decodeBytesLike_encodeBytesLike s rest hfits]
      rfl
    | _ => cases h.goType
  | bytes =>
    cases v with
    | bytes b =>
      refine ⟨_, rfl, fun rest hfits => ?_⟩
      rw [decodeValue, decodeBytesLike_encodeBytesLike b rest hfits]
      rfl
    | _ => cases h.goType
  | long =>
    cases v with
    | int64 n =>
      refine ⟨_, rfl, fun rest _ => ?_⟩
      simp only [decodeValue, readVarint_writeVarint]
    | _ => cases h.goType
  | int =>
    cases v with
    | int64 n =>
      obtain ⟨hlo, hhi⟩ : -2147483648 ≤ n ∧ n ≤ 2147483647 := h.inRange rfl
      have hrange : ¬(n > 2147483647 ∨ n < -2147483648) :=
        not_or.mpr ⟨Int64.not_lt.mpr hhi, Int64.not_lt.mpr hlo⟩
      refine ⟨writeVarint n, ?_, fun rest _ => ?_⟩
      · simp only [encodeValue, toInt64, if_neg hrange]
      · simp only [decodeValue, readVarint_writeVarint]
    | _ => cases h.goType
  | boolean =>
    cases v with
    | bool b => cases b <;> exact ⟨_, rfl, fun rest _ => rfl⟩
    | _ => cases h.goType
  | double =>
    cases v with
    | float64 bits =>
      refine ⟨_, rfl, fun rest _ => ?_⟩
      have hslice := slice_middle (ε := ValueError) [] (littleEndian 8 bits.toNat) rest 0 8 rfl
        (by simp)
      have hlt : bits.toNat < 256 ^ 8 := bits.toNat_lt
      rw [nil_append] at hslice
      rw [decodeValue, if_neg (by simp), hslice]
      show Except.ok (Value.float64 (UInt64.ofNat (ofLittleEndian (littleEndian 8 bits.toNat))), _) = _
      rw [ofLittleEndian_littleEndian hlt, UInt64.ofNat_toNat, length_littleEndian]
      rfl
    | _ => cases h.goType
  | unsupported text => exact absurd rfl h.supported

/-! ### Fields by name -/

/-- Some field has the name. -/
def Declares (fields : List AvroField) (name : Str) : Prop := ∃ f ∈ fields, f.name = name

instance decidableDeclares (fields : List AvroField) (name : Str) : Decidable (Declares fields name) :=
  inferInstanceAs (Decidable (∃ f ∈ fields, f.name = name))

/-- The last field with the name. -/
def lastNamed (name : Str) : List AvroField → Option AvroField
  | [] => none
  | f :: fs => (lastNamed name fs).or (if f.name = name then some f else none)

variable {fields : List AvroField}

variable {f : AvroField} {name : Str}

theorem of_lastNamed (h : lastNamed name fields = some f) :
    f ∈ fields ∧ f.name = name := by
  induction fields with
  | nil => cases h
  | cons g gs ih =>
    rw [lastNamed, Option.or_eq_some_iff] at h
    rcases h with h | ⟨-, h⟩
    · exact ⟨mem_cons_of_mem g (ih h).1, (ih h).2⟩
    split at h
    · next hname =>
      cases h
      exact ⟨mem_cons_self, hname⟩
    · cases h

theorem lastNamed_eq_none_iff :
    lastNamed name fields = none ↔ ¬Declares fields name := by
  induction fields with
  | nil => simp [lastNamed, Declares]
  | cons g gs ih =>
    have hcons : Declares (g :: gs) name ↔ g.name = name ∨ Declares gs name :=
      exists_mem_cons_iff ..
    rw [lastNamed, Option.or_eq_none_iff, ih, hcons, not_or, and_comm]
    simp

/-! ### The fields of the writer -/

/-- Fields are read one after the other. A later one takes the place of an earlier one with its
name. -/
theorem decodeFields_flatMap (enc : AvroField → List UInt8) (val : AvroField → Value)
    (h : ∀ f ∈ fields, ∀ rest, (enc f ++ rest).length < 2 ^ 63 →
      decodeValue f.type (enc f ++ rest) = .ok (val f, ((enc f).length : ℕ))) (before : List UInt8)
    (written : GoMap Str Value) (hfits : (before ++ fields.flatMap enc).length < 2 ^ 63) :
    ∃ written', decodeFields (before ++ fields.flatMap enc) fields before.length written =
        .ok (written', ((before ++ fields.flatMap enc).length : ℕ)) ∧
      ∀ name, written'.lookup name = ((lastNamed name fields).map val).or (written.lookup name) := by
  induction fields generalizing before written with
  | nil =>
    refine ⟨written, ?_, fun name => rfl⟩
    rw [flatMap_nil, append_nil, decodeFields]
  | cons f fs ih =>
    rw [flatMap_cons] at hfits ⊢
    -- once the value is read, its bytes belong to what was read before the next field
    obtain ⟨written', hfields, hlookup⟩ := ih (fun g hg => h g (mem_cons_of_mem f hg))
      (before ++ enc f) (written.insert f.name (val f)) (by rwa [append_assoc])
    rw [append_assoc] at hfields
    have hvalue := h f mem_cons_self (fs.flatMap enc) (by
      rw [length_append] at hfits
      omega)
    refine ⟨written', ?_, fun name => ?_⟩
    · rw [decodeFields, slice_append]
      dsimp only
      rw [hvalue]
      dsimp only
      rw [← Nat.cast_add, ← length_append, hfields]
    rw [hlookup, lastNamed, GoMap.lookup_insert_if]
    cases lastNamed name fs with
    | some last => rfl
    | none =>
      by_cases hname : f.name = name
      · simp [hname]
      · simp [hname, Ne.symm hname]

/-- The record has a value of the right type for every field. -/
def WellTyped (fields : List AvroField) (record : GoMap Str Value) : Prop :=
  ∀ f ∈ fields, ∃ v, record.lookup f.name = some v ∧ HasType f.type v

/-- What a record has for a field, and its bytes. -/
def fieldValue (record : GoMap Str Value) (f : AvroField) : Value := record.read f.name (.other [])
def fieldBytes (record : GoMap Str Value) (f : AvroField) : List UInt8 :=
  (encodeValue f.type (fieldValue record f)).toOption.getD []

variable {record : GoMap Str Value}

theorem fieldValue_of_lookup (h : record.lookup f.name = some v) :
    fieldValue record f = v := by
  rw [fieldValue, GoMap.read, h, Option.getD_some]

theorem fieldBytes_spec (hv : record.lookup f.name = some v) (htype : HasType f.type v) :
    encodeValue f.type v = .ok (fieldBytes record f) ∧
      ∀ rest, (fieldBytes record f ++ rest).length < 2 ^ 63 →
        decodeValue f.type (fieldBytes record f ++ rest) = .ok (v, ((fieldBytes record f).length : ℕ)) := by
  obtain ⟨enc, henc, hdec⟩ := decodeValue_encodeValue htype
  have hbytes : fieldBytes record f = enc := by
    rw [fieldBytes, fieldValue_of_lookup hv, henc]
    rfl
  rw [hbytes]
  exact ⟨henc, hdec⟩

theorem encodeBody_of_wellTyped (h : WellTyped fields record) (schema : Str) :
    encodeBody schema record fields = .ok (fields.flatMap (fieldBytes record)) := by
  induction fields with
  | nil => rfl
  | cons f fs ih =>
    obtain ⟨v, hv, htype⟩ := h f mem_cons_self
    have hrest := ih fun g hg => h g (mem_cons_of_mem f hg)
    simp only [encodeBody, hv, (fieldBytes_spec hv htype).1, hrest, Except.map, flatMap_cons]

theorem decodeFields_of_wellTyped (h : WellTyped fields record) (before : List UInt8)
    (hfits : (before ++ fields.flatMap (fieldBytes record)).length < 2 ^ 63) :
    ∃ written, decodeFields (before ++ fields.flatMap (fieldBytes record)) fields before.length ∅ =
        .ok (written, ((before ++ fields.flatMap (fieldBytes record)).length : ℕ)) ∧
      ∀ name, written.lookup name = if Declares fields name then record.lookup name else none := by
  obtain ⟨written, hfields, hlookup⟩ := decodeFields_flatMap (fieldBytes record) (fieldValue record)
    (fun f hf rest hrest => by
      obtain ⟨v, hv, htype⟩ := h f hf
      rw [(fieldBytes_spec hv htype).2 rest hrest, fieldValue_of_lookup hv])
    before ∅ hfits
  refine ⟨written, hfields, fun name => ?_⟩
  rw [hlookup, AList.lookup_empty, Option.or_none]
  cases hlast : lastNamed name fields with
  | none => rw [if_neg (lastNamed_eq_none_iff.mp hlast), Option.map_none]
  | some f =>
    obtain ⟨hf, rfl⟩ := of_lastNamed hlast
    obtain ⟨v, hv, -⟩ := h f hf
    rw [if_pos ⟨f, hf, rfl⟩, Option.map_some, fieldValue_of_lookup hv, hv]

/-! ### The fields of the reader -/

/-- What the reader gets for a field. -/
def resolved (written : GoMap Str Value) (rf : AvroField) : Option Value :=
  (written.lookup rf.name).or rf.default

theorem resolve_cons (written : GoMap Str Value) (rf : AvroField) (rfs : List AvroField)
    (out : GoMap Str Value) :
    resolve written (rf :: rfs) out =
      match resolved written rf with
      | some v => resolve written rfs (out.insert rf.name v)
      | none => .error (.notResolvable rf.name) := by
  rw [resolve, resolved]
  cases written.lookup rf.name with
  | some v => rfl
  | none =>
    cases rf.default with
    | none => rfl
    | some v => rfl

variable {written out : GoMap Str Value} {rfs : List AvroField} {writer : AvroSchema}

theorem resolve_ok_iff :
    (∃ out', resolve written rfs out = .ok out') ↔ ∀ rf ∈ rfs, resolved written rf ≠ none := by
  induction rfs generalizing out with
  | nil => exact iff_of_true ⟨out, rfl⟩ (by simp)
  | cons rf rfs ih =>
    rw [resolve_cons, forall_mem_cons]
    cases hrf : resolved written rf with
    | none => simp
    | some v => simp [ih]

theorem lookup_resolve {out' : GoMap Str Value}
    (h : resolve written rfs out = .ok out') (name : Str) :
    out'.lookup name = ((lastNamed name rfs).bind (resolved written)).or (out.lookup name) := by
  induction rfs generalizing out with
  | nil =>
    cases h
    rfl
  | cons rf rfs ih =>
    rw [resolve_cons] at h
    cases hrf : resolved written rf with
    | none =>
      rw [hrf] at h
      cases h
    | some v =>
      rw [hrf] at h
      rw [ih h, GoMap.lookup_insert_if, lastNamed]
      cases hlast : lastNamed name rfs with
      | some last =>
        have hgets := resolve_ok_iff.mp ⟨_, h⟩ last (of_lastNamed hlast).1
        obtain ⟨w, hw⟩ := Option.ne_none_iff_exists'.mp hgets
        simp [hw]
      | none =>
        by_cases hname : rf.name = name
        · simp [hname, hrf]
        · simp [hname, Ne.symm hname]

/-! ### Payloads -/

theorem length_header (fp : UInt64) : (header fp).length = 10 := by
  simp [header]

theorem avroDecode_header {registry : SchemaRegistry} {fp : UInt64}
    (h : registry.lookup fp = some writer) (body : List UInt8) (reader : AvroSchema) :
    avroDecode (header fp ++ body) registry reader = decodeBody (header fp ++ body) writer reader := by
  have hslice := slice_middle (ε := Error) [0xC3, 0x01] (littleEndian 8 fp.toNat) body 2 10 rfl
    (by simp)
  have hfp : UInt64.ofNat (ofLittleEndian (littleEndian 8 fp.toNat)) = fp := by
    have hlt : fp.toNat < 256 ^ 8 := fp.toNat_lt
    rw [ofLittleEndian_littleEndian hlt, UInt64.ofNat_toNat]
  have hlen : ¬(header fp ++ body).length < 10 := by
    rw [length_append, length_header]
    omega
  have h₀ : index (ε := Error) (header fp ++ body) 0 = .ok 0xC3 := rfl
  have h₁ : index (ε := Error) (header fp ++ body) 1 = .ok 0x01 := rfl
  change slice (header fp ++ body) 2 10 = _ at hslice
  rw [avroDecode, if_neg hlen]
  simp only [h₀, h₁, hslice, bind, Except.bind, ne_eq, not_true_eq_false, or_self, if_false]
  rw [hfp, h]

theorem decodeBody_of_fields {data : List UInt8}
    (h : decodeFields data writer.fields 10 ∅ = .ok (written, data.length)) (reader : AvroSchema) :
    decodeBody data writer reader = (resolve written reader.fields ∅).mapError .error := by
  simp only [decodeBody, h, ne_eq, not_true_eq_false, if_false]

theorem mapError_eq_ok_iff {ε' α : Type} {f : ε → ε'} {x : Except ε α} {a : α} :
    x.mapError f = .ok a ↔ x = .ok a := by
  cases x with
  | error e => exact iff_of_false nofun nofun
  | ok b =>
    rw [Except.mapError, Except.ok.injEq, Except.ok.injEq]

theorem resolved_of_wellTyped (htyped : WellTyped fields record)
    (hlookup : ∀ name, written.lookup name = if Declares fields name then record.lookup name else none)
    (rf : AvroField) :
    resolved written rf = if Declares fields rf.name then record.lookup rf.name else rf.default := by
  rw [resolved, hlookup]
  split_ifs with hshared
  · obtain ⟨f, hf, hname⟩ := hshared
    obtain ⟨v, hv, -⟩ := htyped f hf
    rw [← hname, hv]
    rfl
  · rfl

/-- A payload is resolved exactly if each field that only the reader has has a default. -/
theorem avroDecode_avroEncode (writer reader : AvroSchema) (record : GoMap Str Value)
    (registry : SchemaRegistry) (htyped : WellTyped writer.fields record)
    (hregistered : registry.lookup writer.fingerprint = some writer)
    (hfits : ∀ data, avroEncode writer record = .ok data → data.length < 2 ^ 63) :
    ∃ data, avroEncode writer record = .ok data ∧
      ((∃ out, avroDecode data registry reader = .ok out) ↔
        ∀ rf ∈ reader.fields, ¬Declares writer.fields rf.name → rf.default ≠ none) ∧
      ∀ out, avroDecode data registry reader = .ok out → ∀ name,
        out.lookup name = (lastNamed name reader.fields).bind fun rf =>
          if Declares writer.fields name then record.lookup name else rf.default := by
  have hencode : avroEncode writer record =
      .ok (header writer.fingerprint ++ writer.fields.flatMap (fieldBytes record)) := by
    rw [avroEncode, encodeBody_of_wellTyped htyped]
    rfl
  obtain ⟨written, hfields, hlookup⟩ :=
    decodeFields_of_wellTyped htyped (header writer.fingerprint) (hfits _ hencode)
  rw [length_header] at hfields
  have hresolved := resolved_of_wellTyped htyped hlookup
  refine ⟨_, hencode, ?_, fun out hout name => ?_⟩
  · rw [avroDecode_header hregistered, decodeBody_of_fields hfields]
    simp only [mapError_eq_ok_iff, resolve_ok_iff, hresolved]
    refine forall₂_congr fun rf _ => ?_
    split_ifs with hshared
    · obtain ⟨f, hf, hname⟩ := hshared
      obtain ⟨v, hv, -⟩ := htyped f hf
      rw [← hname, hv]
      exact iff_of_true nofun fun hnot => absurd ⟨f, hf, rfl⟩ hnot
    · exact ⟨fun h _ => h, fun h => h hshared⟩
  rw [avroDecode_header hregistered, decodeBody_of_fields hfields, mapError_eq_ok_iff] at hout
  rw [lookup_resolve hout, AList.lookup_empty, Option.or_none]
  cases hlast : lastNamed name reader.fields with
  | none => rfl
  | some rf =>
    obtain ⟨-, rfl⟩ := of_lastNamed hlast
    rw [Option.bind_some, Option.bind_some, hresolved]

/-- Two versions of a schema: the reader has dropped a field and added one with a default. -/
def eventV1 : AvroSchema := ⟨literal "E", [⟨literal "n", .int, none⟩, ⟨literal "s", .string, none⟩], by decide⟩
def eventV2 : AvroSchema :=
  ⟨literal "E", [⟨literal "d", .boolean, some (.bool true)⟩, ⟨literal "s", .string, none⟩], by decide⟩

/-- A record of the first version. -/
def eventRecord : GoMap Str Value :=
  (AList.insert (literal "n") (.int64 (-3)) ∅ : GoMap Str Value).insert (literal "s") (.string [104, 105])

/-- The second version reads a payload of the first. -/
theorem v2_reads_v1 : WellTyped eventV1.fields eventRecord ∧
    (SchemaRegistry.register ∅ eventV1).lookup eventV1.fingerprint = some eventV1 ∧
    ∃ data out, avroEncode eventV1 eventRecord = .ok data ∧ data.length < 2 ^ 63 ∧
      avroDecode data (SchemaRegistry.register ∅ eventV1) eventV2 = .ok out ∧
      out.lookup (literal "d") = some (.bool true) ∧
      out.lookup (literal "s") = some (.string [104, 105]) ∧ out.lookup (literal "n") = none := by
  have htyped : WellTyped eventV1.fields eventRecord :=
    forall_mem_cons.mpr ⟨⟨.int64 (-3), rfl, by decide⟩,
      forall_mem_singleton.mpr ⟨.string [104, 105], rfl, by decide⟩⟩
  have hregistered : (SchemaRegistry.register ∅ eventV1).lookup eventV1.fingerprint = some eventV1 :=
    AList.lookup_insert _
  have hfits : ∀ data, avroEncode eventV1 eventRecord = .ok data → data.length < 2 ^ 63 := by
    intro data hdata
    obtain rfl : header eventV1.fingerprint ++ [5, 4, 104, 105] = data := Except.ok.inj hdata
    rw [length_append, length_header]
    decide
  obtain ⟨data, hencode, hiff, hout⟩ :=
    avroDecode_avroEncode eventV1 eventV2 eventRecord (SchemaRegistry.register ∅ eventV1) htyped hregistered hfits
  obtain ⟨out, hdecode⟩ := hiff.mpr (by decide)
  refine ⟨htyped, hregistered, data, out, hencode, hfits data hencode, hdecode, ?_, ?_, ?_⟩
  · rw [hout out hdecode]
    rfl
  · rw [hout out hdecode]
    rfl
  · rw [hout out hdecode]
    rfl

end HelixCluster.Avro
