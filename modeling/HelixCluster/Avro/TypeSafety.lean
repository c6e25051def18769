import HelixCluster.Avro.RoundTrip

/-!
# Untrusted payloads

`AvroDecode` never reads outside of the payload, whatever its bytes are (`avroDecode_yields`).
-/

namespace HelixCluster.Avro

open Option AList

/-- The call does not panic, and what it returns has the property. -/
def Yields {ε α : Type} (post : α → Prop) : Except (Fault ε) α → Prop
  | .ok a => post a
  | .error (.error _) => True
  | .error .panic => False

theorem Yields.cases {ε α : Type} {p : α → Prop} {x : Except (Fault ε) α} (h : Yields p x) :
    (∃ a, x = .ok a ∧ p a) ∨ ∃ e, x = .error (.error e) := by
  cases x with
  | ok a => exact .inl ⟨a, rfl, h⟩
  | error e =>
    cases e with
    | error e => exact .inr ⟨e, rfl⟩
    | panic => exact h.elim

theorem Yields.mono {ε α : Type} {p q : α → Prop} {x : Except (Fault ε) α} (h : Yields p x)
    (hpq : ∀ a, p a → q a) : Yields q x := by
  obtain ⟨a, rfl, ha⟩ | ⟨e, rfl⟩ := h.cases
  · exact hpq a ha
  · trivial

theorem Yields.map {ε α β : Type} {p : α → Prop} {q : β → Prop} {f : α → β} {x : Except (Fault ε) α}
    (h : Yields p x) (hf : ∀ a, p a → q (f a)) : Yields q (x.map f) := by
  obtain ⟨a, rfl, ha⟩ | ⟨e, rfl⟩ := h.cases
  · exact hf a ha
  · trivial

/-! ### One value -/

theorem slice_yields {ε : Type} (data : List UInt8) (lo hi : ℤ)
    (h : 0 ≤ lo ∧ lo ≤ hi ∧ hi ≤ data.length) :
    Yields (fun bs => (bs.length : ℤ) = hi - lo) (slice data lo hi : Except (Fault ε) _) := by
  rw [slice, if_pos h]
  show (((data.drop lo.toNat).take (hi - lo).toNat).length : ℤ) = hi - lo
  rw [List.length_take, List.length_drop]
  omega

/-- A position in the rest of a payload. -/
def Within (data : List UInt8) (n : ℤ) : Prop := 0 ≤ n ∧ n ≤ data.length

variable {data : List UInt8}

theorem decodeBytesLike_yields (hfits : data.length + 10 < 2 ^ 63) :
    Yields (fun r => Within data r.2) (decodeBytesLike data) := by
  rw [decodeBytesLike]
  cases hread : readVarint data with
  | error e => trivial
  | ok r =>
    obtain ⟨n, adv⟩ := r
    obtain ⟨-, hlen, hten⟩ := of_readVarint_ok hread
    have hadv : (Int64.ofNat adv).toInt = adv := Int64.toInt_ofNat_of_lt (by omega)
    dsimp only
    split
    · trivial
    · next hneg =>
      have hn : 0 ≤ n.toInt := Int.not_lt.mp fun h => hneg (Int64.lt_iff_toInt_lt.mpr h)
      split
      · trivial
      · next hwithin =>
        rw [not_or] at hwithin
        -- the length is at most that of the data, so the sum does not overflow
        have hstop : (Int64.ofNat adv + n).toInt = adv + n.toInt := by
          rw [toInt_add_of_bounds (by omega) (by omega), hadv]
        rw [hstop] at hwithin ⊢
        refine (slice_yields _ _ _ ⟨by omega, by omega, by omega⟩).map fun src _ => ?_
        exact ⟨by omega, by omega⟩

theorem decodeValue_yields (t : AvroType) (data : List UInt8) (hfits : data.length + 10 < 2 ^ 63) :
    Yields (fun r => t.goType ≠ none ∧ r.1.goType = t.goType ∧ Within data r.2) (decodeValue t data) := by
  cases t with
  | string => exact (decodeBytesLike_yields hfits).map fun r hr => ⟨some_ne_none _, rfl, hr⟩
  | bytes => exact (decodeBytesLike_yields hfits).map fun r hr => ⟨some_ne_none _, rfl, hr⟩
  | long | int =>
    rw [decodeValue]
    cases hread : readVarint data with
    | error e => trivial
    | ok r =>
      obtain ⟨n, adv⟩ := r
      obtain ⟨hpos, hlen, -⟩ := of_readVarint_ok hread
      exact ⟨some_ne_none _, rfl, by omega, by omega⟩
  | boolean =>
    rw [decodeValue]
    cases data with
    | nil => trivial
    | cons b bs =>
      rw [if_neg (by simp)]
      dsimp only [index, List.getElem?_cons_zero]
      have hwithin : Within (b :: bs) 1 := ⟨by omega, by simp⟩
      split
      · exact ⟨some_ne_none _, rfl, hwithin⟩
      split
      · exact ⟨some_ne_none _, rfl, hwithin⟩
      · trivial
  | double =>
    rw [decodeValue]
    split_ifs with hlen
    · trivial
    · refine (slice_yields _ _ _ ⟨by omega, by omega, by omega⟩).map fun bs _ => ?_
      exact ⟨some_ne_none _, rfl, by omega, by omega⟩
  | unsupported text => trivial

/-! ### The fields of the writer -/

/-- All types are supported, and the name of a field has a value of its last type. -/
structure Read (fields : List AvroField) (before written : GoMap Str Value) : Prop where
  supported : ∀ f ∈ fields, f.type.goType ≠ none
  declared : ∀ name f, lastNamed name fields = some f →
    ∃ v, written.lookup name = some v ∧ v.goType = f.type.goType
  others : ∀ name, lastNamed name fields = none → written.lookup name = before.lookup name

theorem Read.cons {f : AvroField} {fs : List AvroField} {before written : GoMap Str Value} {v : Value}
    (h : Read fs (before.insert f.name v) written) (hsupported : f.type.goType ≠ none)
    (htype : v.goType = f.type.goType) : Read (f :: fs) before written where
  supported := List.forall_mem_cons.mpr ⟨hsupported, h.supported⟩
  declared name g hg := by
    rw [lastNamed] at hg
    cases hlast : lastNamed name fs with
    | some last =>
      rw [hlast] at hg
      cases hg
      exact h.declared name g hlast
    | none =>
      rw [hlast, none_or] at hg
      split at hg
      · next hname =>
        cases hg
        exact ⟨v, by rw [h.others name hlast, ← hname, lookup_insert], htype⟩
      · cases hg
  others name hname := by
    rw [lastNamed, or_eq_none_iff] at hname
    rw [h.others name hname.1, lookup_insert_ne]
    rintro rfl
    simp at hname

section

variable (hfits : data.length + 10 < 2 ^ 63)

include hfits

theorem decodeFields_yields (fields : List AvroField) (pos : ℤ)
    (hpos : Within data pos) (written : GoMap Str Value) :
    Yields (fun r => Read fields written r.1 ∧ Within data r.2) (decodeFields data fields pos written) := by
  induction fields generalizing pos written with
  | nil => exact ⟨⟨nofun, nofun, fun _ _ => rfl⟩, hpos⟩
  | cons f fs ih =>
    obtain ⟨hlo, hhi⟩ := hpos
    rw [decodeFields]
    obtain ⟨rest, hslice, hlen⟩ | ⟨e, hslice⟩ :=
      (slice_yields (ε := Error) data pos data.length ⟨hlo, hhi, le_refl _⟩).cases
    · rw [hslice]
      dsimp only
      obtain ⟨⟨v, n⟩, hvalue, hsupported, htype, hn⟩ | ⟨e, hvalue⟩ :=
        (decodeValue_yields f.type rest (by omega)).cases
      · rw [hvalue]
        have hnext : Within data (pos + n) := by
          obtain ⟨hzero, hle⟩ := hn
          exact ⟨by omega, by omega⟩
        exact (ih _ hnext _).mono fun r hr => ⟨hr.1.cons hsupported htype, hr.2⟩
      · rw [hvalue]
        trivial
    · rw [hslice]
      trivial

/-! ### Payloads -/

/-- A registered schema of a writer that the reader's schema resolves. -/
structure Resolvable (writer reader : AvroSchema) : Prop where
  supported : ∀ f ∈ writer.fields, f.type.goType ≠ none
  defaults : ∀ rf ∈ reader.fields, ¬Declares writer.fields rf.name → rf.default ≠ none

/-- The writer's schema is registered and resolvable, and the values are those that were read. -/
def Decoded (registry : SchemaRegistry) (reader : AvroSchema) (out : GoMap Str Value) : Prop :=
  ∃ fp writer written, registry.lookup fp = some writer ∧ Read writer.fields ∅ written ∧
    Resolvable writer reader ∧
    ∀ name, out.lookup name = (lastNamed name reader.fields).bind (resolved written)

variable {registry : SchemaRegistry}

theorem decodeBody_yields (hlen : 10 ≤ data.length)
    {fp : UInt64} {writer : AvroSchema} (hwriter : registry.lookup fp = some writer)
    (reader : AvroSchema) : Yields (Decoded registry reader) (decodeBody data writer reader) := by
  have hfields := decodeFields_yields hfits writer.fields 10 ⟨by omega, by omega⟩ ∅
  rw [decodeBody]
  obtain ⟨⟨written, pos⟩, hdecode, hread, -⟩ | ⟨e, hdecode⟩ := hfields.cases
  · rw [hdecode]
    dsimp only
    split
    · trivial
    cases hresolve : resolve written reader.fields ∅ with
    | error e => trivial
    | ok out =>
      refine ⟨fp, writer, written, hwriter, hread, ⟨hread.supported, fun rf hrf hnot => ?_⟩,
        fun name => ?_⟩
      · have hgets := resolve_ok_iff.mp ⟨out, hresolve⟩ rf hrf
        have hnone := hread.others rf.name (lastNamed_eq_none_iff.mpr hnot)
        rwa [resolved, hnone, lookup_empty, none_or] at hgets
      · rw [lookup_resolve hresolve, lookup_empty, or_none]
  · rw [hdecode]
    trivial

theorem avroDecode_yields (registry : SchemaRegistry)
    (reader : AvroSchema) : Yields (Decoded registry reader) (avroDecode data registry reader) := by
  rw [avroDecode]
  split_ifs with hlen
  · trivial
  · have hindex : ∀ i < 10, ∃ b, index (ε := Error) data i = .ok b := by
      intro i hi
      have hi : i < data.length := by omega
      exact ⟨data[i], by rw [index, List.getElem?_eq_getElem hi]⟩
    obtain ⟨b₀, h₀⟩ := hindex 0 (by omega)
    obtain ⟨b₁, h₁⟩ := hindex 1 (by omega)
    obtain ⟨bs, hbs, -⟩ | ⟨e, hbs⟩ :=
      (slice_yields (ε := Error) data 2 10 ⟨by omega, by omega, by omega⟩).cases
    · simp only [h₀, h₁, hbs, bind, Except.bind]
      split
      · trivial
      split
      · trivial
      · next writer hwriter => exact decodeBody_yields hfits (by omega) hwriter reader
    · simp only [h₀, h₁, hbs, bind, Except.bind]
      split <;> trivial

end

/-! ### The types of what is returned -/

/-- The reader gets its own fields only, and each value has the type of its field. -/
def Typed (reader : AvroSchema) (out : GoMap Str Value) : Prop :=
  ∀ name v, out.lookup name = some v → Declares reader.fields name ∧
    ∀ rf ∈ reader.fields, rf.name = name → HasType rf.type v

/-- A common field is not an int and has one Go type, and a default has the type of its field. -/
structure Compatible (writer reader : AvroSchema) : Prop where
  shared : ∀ rf ∈ reader.fields, ∀ wf, lastNamed rf.name writer.fields = some wf →
    wf.type.goType = rf.type.goType ∧ rf.type ≠ .int
  defaults : ∀ rf ∈ reader.fields, ¬Declares writer.fields rf.name →
    ∀ last v, lastNamed rf.name reader.fields = some last → last.default = some v → HasType rf.type v

theorem Decoded.typed {reader : AvroSchema} {out : GoMap Str Value}
    (h : Decoded registry reader out)
    (hcompatible : ∀ fp writer, registry.lookup fp = some writer → Resolvable writer reader →
      Compatible writer reader) : Typed reader out := by
  obtain ⟨fp, writer, written, hwriter, hread, hresolvable, hout⟩ := h
  have htypes := hcompatible fp writer hwriter hresolvable
  intro name v hv
  rw [hout, bind_eq_some_iff] at hv
  obtain ⟨last, hlast, hgets⟩ := hv
  obtain ⟨hmem, rfl⟩ := of_lastNamed hlast
  refine ⟨⟨last, hmem, rfl⟩, fun rf hrf hname => ?_⟩
  cases hwf : lastNamed last.name writer.fields with
  | some wf =>
    obtain ⟨w, hw, htype⟩ := hread.declared last.name wf hwf
    obtain ⟨hsame, hint⟩ := htypes.shared rf hrf wf (hname ▸ hwf)
    rw [resolved, hw, some_or, Option.some.injEq] at hgets
    subst hgets
    refine ⟨?_, htype.trans hsame, fun h => absurd h hint⟩
    exact hsame ▸ hread.supported wf (of_lastNamed hwf).1
  | none =>
    rw [resolved, hread.others last.name hwf, lookup_empty, none_or] at hgets
    exact htypes.defaults rf hrf (hname ▸ lastNamed_eq_none_iff.mp hwf) last v (hname ▸ hlast) hgets

/-! ### Payloads with bad values -/

/-- A value that is read under a type. It is out of range for an int. -/
def sample : AvroType → Value
  | .string => .string []
  | .bytes => .bytes []
  | .long | .int => .int64 2147483648
  | .boolean => .bool false
  | .double => .float64 0
  | .unsupported text => .other text

/-- The type under which `encodeValue` writes it. -/
def wide : AvroType → AvroType
  | .int => .long
  | t => t

def sampleBytes (t : AvroType) : List UInt8 := (encodeValue (wide t) (sample t)).toOption.getD []

theorem decodeValue_wide (t : AvroType) (data : List UInt8) :
    decodeValue (wide t) data = decodeValue t data := by
  cases t <;> rfl

variable {t : AvroType}

theorem hasType_sample (h : t.goType ≠ none) : HasType (wide t) (sample t) := by
  cases t with
  | unsupported text => exact absurd rfl h
  | _ => decide

theorem goType_sample (h : t.goType ≠ none) : (sample t).goType = t.goType := by
  cases t with
  | unsupported text => exact absurd rfl h
  | _ => rfl

theorem not_inRange_sample (h : t.goType = some .int64) : ¬(sample t).InRange := by
  cases t with
  | long | int => decide
  | _ => cases h

theorem decodeValue_sampleBytes (h : t.goType ≠ none) (rest : List UInt8)
    (hfits : (sampleBytes t ++ rest).length < 2 ^ 63) :
    decodeValue t (sampleBytes t ++ rest) = .ok (sample t, ((sampleBytes t).length : ℕ)) := by
  obtain ⟨enc, henc, hdec⟩ := decodeValue_encodeValue (hasType_sample h)
  have hbytes : sampleBytes t = enc := by
    rw [sampleBytes, henc]
    rfl
  rw [hbytes] at hfits ⊢
  rw [← decodeValue_wide, hdec rest hfits]

theorem length_sampleBytes_le (t : AvroType) : (sampleBytes t).length ≤ 8 := by
  cases t with
  | unsupported text => exact Nat.zero_le 8
  | _ => decide

/-- A payload of the writer, with the sample of each field. -/
def samplePayload (fp : UInt64) (writer : AvroSchema) : List UInt8 :=
  header fp ++ writer.fields.flatMap fun f => sampleBytes f.type

theorem length_samplePayload (fp : UInt64) (writer : AvroSchema) :
    (samplePayload fp writer).length + 10 < 2 ^ 63 := by
  have hbody : ∀ fs : List AvroField,
      (fs.flatMap fun f => sampleBytes f.type).length ≤ 8 * fs.length := by
    intro fs
    induction fs with
    | nil => exact Nat.le_refl 0
    | cons f fs ih =>
      have hone := length_sampleBytes_le f.type
      rw [List.flatMap_cons, List.length_append, List.length_cons]
      omega
  have hle := hbody writer.fields
  have hfits := writer.fits
  rw [samplePayload, List.length_append, length_header]
  omega

theorem avroDecode_samplePayload {fp : UInt64} {writer reader : AvroSchema}
    (hwriter : registry.lookup fp = some writer) (h : Resolvable writer reader) :
    ∃ out, avroDecode (samplePayload fp writer) registry reader = .ok out ∧
      ∀ name, out.lookup name = (lastNamed name reader.fields).bind fun rf =>
        ((lastNamed name writer.fields).map fun wf => sample wf.type).or rf.default := by
  have hfits := length_samplePayload fp writer
  obtain ⟨written, hfields, hlookup⟩ := decodeFields_flatMap (fun f => sampleBytes f.type)
    (fun f => sample f.type) (fun f hf => decodeValue_sampleBytes (h.supported f hf))
    (header fp) ∅ (Nat.lt_of_add_right_lt hfits)
  rw [length_header] at hfields
  simp only [lookup_empty, or_none] at hlookup
  rw [samplePayload, avroDecode_header hwriter, decodeBody_of_fields hfields]
  have hresolve : ∃ out, resolve written reader.fields ∅ = .ok out := resolve_ok_iff.mpr (by
    intro rf hrf
    rw [resolved, hlookup]
    cases hwf : lastNamed rf.name writer.fields with
    | some wf => exact some_ne_none _
    | none => exact h.defaults rf hrf (lastNamed_eq_none_iff.mp hwf))
  obtain ⟨out, hout⟩ := hresolve
  refine ⟨out, mapError_eq_ok_iff.mpr hout, fun name => ?_⟩
  rw [lookup_resolve hout, lookup_empty, or_none]
  cases hlast : lastNamed name reader.fields with
  | none => rfl
  | some rf =>
    obtain ⟨-, rfl⟩ := of_lastNamed hlast
    rw [bind_some, bind_some, resolved, hlookup]

/-- Decoding never panics, and is typed exactly if each schema that the reader's resolves is
compatible. -/
theorem decode_safe_iff (registry : SchemaRegistry) (reader : AvroSchema) :
    (∀ data : List UInt8, data.length + 10 < 2 ^ 63 →
      avroDecode data registry reader ≠ .error .panic) ∧
    ((∀ data : List UInt8, data.length + 10 < 2 ^ 63 →
      Yields (Typed reader) (avroDecode data registry reader)) ↔
    ∀ fp writer, registry.lookup fp = some writer → Resolvable writer reader →
      Compatible writer reader) := by
  refine ⟨fun data hfits hpanic => ?_, ?_, ?_⟩
  · have hyields := avroDecode_yields hfits registry reader
    rwa [hpanic] at hyields
  · intro h fp writer hwriter hresolvable
    obtain ⟨out, hout, hlookup⟩ := avroDecode_samplePayload hwriter hresolvable
    have htyped := h _ (length_samplePayload fp writer)
    rw [hout] at htyped
    have hvalue : ∀ rf ∈ reader.fields, ∀ last, lastNamed rf.name reader.fields = some last →
        ∀ v, ((lastNamed rf.name writer.fields).map fun wf => sample wf.type).or last.default = some v →
          HasType rf.type v := by
      intro rf hrf last hlast v hv
      refine (htyped rf.name v ?_).2 rf hrf rfl
      rw [hlookup, hlast, bind_some, hv]
    refine ⟨fun rf hrf wf hwf => ?_, fun rf hrf hnot last v hlast hv => ?_⟩
    · obtain ⟨last, hlast⟩ : ∃ last, lastNamed rf.name reader.fields = some last := by
        cases hlast : lastNamed rf.name reader.fields with
        | some last => exact ⟨last, rfl⟩
        | none => exact absurd ⟨rf, hrf, rfl⟩ (lastNamed_eq_none_iff.mp hlast)
      have htype := hvalue rf hrf last hlast (sample wf.type) (by rw [hwf]; rfl)
      have hsupported := hresolvable.supported wf (of_lastNamed hwf).1
      have hsame : wf.type.goType = rf.type.goType := (goType_sample hsupported).symm.trans htype.goType
      refine ⟨hsame, fun hint => ?_⟩
      rw [hint] at hsame
      exact not_inRange_sample hsame (htype.inRange hint)
    · refine hvalue rf hrf last hlast v ?_
      rw [lastNamed_eq_none_iff.mpr hnot, map_none, none_or, hv]
  · intro h data hfits
    exact (avroDecode_yields hfits registry reader).mono fun out hout => hout.typed h

/-- A schema with one field of type int. -/
def counter : AvroSchema := ⟨literal "C", [⟨literal "n", .int, none⟩], by decide⟩

/-- A payload of the schema with a number that takes 33 bits is accepted. -/
theorem int_out_of_range_decoded :
    ∃ out, avroDecode (header counter.fingerprint ++ [128, 128, 128, 128, 16])
        (SchemaRegistry.register ∅ counter) counter = .ok out ∧
      out.lookup (literal "n") = some (.int64 2147483648) ∧ ¬HasType .int (.int64 2147483648) := by
  have hregistered : (SchemaRegistry.register ∅ counter).lookup counter.fingerprint = some counter :=
    lookup_insert _
  rw [avroDecode_header hregistered]
  exact ⟨_, rfl, rfl, by decide⟩

end HelixCluster.Avro
