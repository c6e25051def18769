import HelixCluster.Lib.Rename
import HelixCluster.Lib.Text
import HelixCluster.Lib.ValidText

/-!
# Managed headers

`Sanitizer` of `pkg/headersanitize`. The managed headers of the result come from the connection, and
the others from the client if their spellings agree (`sanitize_shielded_iff`).
-/

namespace HelixCluster.HeaderSanitize

/-! ### Canonical names -/

/-- `unicode.ToLower` of an ASCII byte. -/
def lowerByte (b : UInt8) : UInt8 := if 65 ≤ b ∧ b ≤ 90 then b + 32 else b

section Canonical

-- the Unicode tables of `unicode.ToLower` beyond ASCII
variable (lowerWide : Char → Char)

/-- `unicode.ToLower`. -/
def lowerRune (c : Char) : Char :=
  if c.toNat < 0x80 then Char.ofNat (lowerByte (UInt8.ofNat c.toNat)).toNat else lowerWide c

/-- `strings.ToLower`, which reads runes only if there is a byte beyond ASCII. -/
def toLower (s : Str) : Str :=
  if s.all fun b => b.toNat < 0x80 then s.map lowerByte
  else (coercedRunes s.length s).flatMap fun c => String.utf8EncodeChar (lowerRune lowerWide c)

def titleToken (tok : Str) : Str :=
  match toLower lowerWide tok with
  | [] => []
  | c :: b => (if 97 ≤ c ∧ c ≤ 122 then c - 32 else c) :: b

def canonicalize (name : Str) : Str :=
  if name = [] then [] else join 45 ((name.splitOn 45).map (titleToken lowerWide))

end Canonical

/-! ### The sanitizer -/

def headerForwardedFor : Str := literal "X-Forwarded-For"

def headerRealIP : Str := literal "X-Real-Ip"

def headerTrustedTenant : Str := literal "X-Trusted-Tenant"

structure ConnInfo where
  clientIP : Str
  tenant : Str

structure Sanitizer where
  managed : GoMap Str Unit

variable (lowerWide : Char → Char)

def authoritativeValue (canonical : Str) (conn : ConnInfo) : Str × Bool :=
  if canonical = canonicalize lowerWide headerForwardedFor then (conn.clientIP, true)
  else if canonical = canonicalize lowerWide headerRealIP then (conn.clientIP, true)
  else if canonical = canonicalize lowerWide headerTrustedTenant then (conn.tenant, true)
  else ([], false)

def newSanitizer (managed : List Str) : Sanitizer where
  managed :=
    let standard := [headerForwardedFor, headerRealIP, headerTrustedTenant].foldl
      (fun m h => m.insert (canonicalize lowerWide h) ()) (∅ : GoMap Str Unit)
    managed.foldl (fun m h => if h = [] then m else m.insert (canonicalize lowerWide h) ()) standard

namespace Sanitizer

def isManaged (s : Sanitizer) (name : Str) : Bool := canonicalize lowerWide name ∈ s.managed

def sanitize (s : Sanitizer) (headers : GoMap Str Str) (conn : ConnInfo) : GoMap Str Str :=
  -- Copy through only NON-managed headers.
  let out := headers.rename (s.isManaged lowerWide) (canonicalize lowerWide)
  -- Set every managed header authoritatively from the connection.
  s.managed.keys.foldl (fun out canonical => out.insert canonical (authoritativeValue lowerWide canonical conn).1) out

variable {lowerWide}

theorem lookup_sanitize (s : Sanitizer) (headers : GoMap Str Str) (conn : ConnInfo) (key : Str) :
    (s.sanitize lowerWide headers conn).lookup key =
      if key ∈ s.managed then some (authoritativeValue lowerWide key conn).1
      else (headers.rename (s.isManaged lowerWide) (canonicalize lowerWide)).lookup key := by
  unfold sanitize
  rw [GoMap.lookup_foldl_insert s.managed.keys fun key => (authoritativeValue lowerWide key conn).1]
  by_cases hkey : key ∈ s.managed
  · rw [if_pos hkey, if_pos (AList.mem_keys.mp hkey)]
  · rw [if_neg hkey, if_neg (hkey ∘ AList.mem_keys.mpr)]

variable {s : Sanitizer}

theorem lookup_rename_of_managed {headers : GoMap Str Str} {key : Str}
    (hkey : key ∈ s.managed) :
    (headers.rename (s.isManaged lowerWide) (canonicalize lowerWide)).lookup key = none := by
  refine Option.eq_none_iff_forall_ne_some.mpr fun value hvalue => ?_
  obtain ⟨name, -, hname, rfl⟩ := GoMap.exists_of_lookup_rename hvalue
  exact of_decide_eq_false hname hkey

theorem isManaged_congr {s' : Sanitizer} (h : ∀ key, key ∈ s'.managed ↔ key ∈ s.managed) :
    s'.isManaged lowerWide = s.isManaged lowerWide :=
  funext fun name => decide_eq_decide.mpr (h (canonicalize lowerWide name))

/-- The client cannot set a managed header. -/
structure Shielded (lowerWide : Char → Char) (s : Sanitizer) (conn : ConnInfo)
    (headers : GoMap Str Str) : Prop where
  /-- Managed headers of the client and the order of the loops make no difference. -/
  determined : ∀ (s' : Sanitizer) (headers' : GoMap Str Str),
    (∀ key, key ∈ s'.managed ↔ key ∈ s.managed) →
    GoMap.SameKept (s.isManaged lowerWide) headers headers' →
      ∀ key, (s'.sanitize lowerWide headers' conn).lookup key = (s.sanitize lowerWide headers conn).lookup key
  /-- They carry the address and the tenant of the connection, and are empty otherwise. -/
  managed : ∀ key ∈ s.managed, (s.sanitize lowerWide headers conn).lookup key = some
    (if key = headerForwardedFor ∨ key = headerRealIP then conn.clientIP
    else if key = headerTrustedTenant then conn.tenant else [])
  client : ∀ key value, (s.sanitize lowerWide headers conn).lookup key = some value → key ∉ s.managed →
    ∃ name, headers.lookup name = some value ∧ s.isManaged lowerWide name = false ∧
      canonicalize lowerWide name = key

theorem authoritativeValue_fst (key : Str) (conn : ConnInfo) :
    (authoritativeValue lowerWide key conn).1 =
      if key = headerForwardedFor ∨ key = headerRealIP then conn.clientIP
      else if key = headerTrustedTenant then conn.tenant else [] := by
  have hforwarded : canonicalize lowerWide headerForwardedFor = headerForwardedFor := rfl
  have hreal : canonicalize lowerWide headerRealIP = headerRealIP := rfl
  have htenant : canonicalize lowerWide headerTrustedTenant = headerTrustedTenant := rfl
  rw [authoritativeValue, hforwarded, hreal, htenant]
  split_ifs <;> simp_all

/-- The order of the loops shows exactly if two spellings of a header that is not managed differ. -/
theorem sanitize_shielded_iff (lowerWide : Char → Char) (s : Sanitizer) (conn : ConnInfo)
    (headers : GoMap Str Str) : Shielded lowerWide s conn headers ↔
      GoMap.Unambiguous (s.isManaged lowerWide) (canonicalize lowerWide) headers := by
  rw [← GoMap.rename_determined_iff]
  constructor
  · intro hshielded headers' hkept key
    have hsame := hshielded.determined s headers' (fun _ => Iff.rfl) hkept key
    rw [lookup_sanitize, lookup_sanitize] at hsame
    by_cases hkey : key ∈ s.managed
    · rw [lookup_rename_of_managed hkey, lookup_rename_of_managed hkey]
    · rwa [if_neg hkey, if_neg hkey] at hsame
  intro hsame
  refine ⟨fun s' headers' hmanaged hkept key => ?_, fun key hkey => ?_, fun key value hvalue hkey => ?_⟩
  · rw [lookup_sanitize, lookup_sanitize, isManaged_congr hmanaged, hsame headers' hkept key]
    by_cases hkey : key ∈ s.managed
    · rw [if_pos hkey, if_pos ((hmanaged key).mpr hkey)]
    · rw [if_neg hkey, if_neg ((hmanaged key).not.mpr hkey)]
  · rw [lookup_sanitize, if_pos hkey, authoritativeValue_fst]
  · rw [lookup_sanitize, if_neg hkey] at hvalue
    exact GoMap.exists_of_lookup_rename hvalue

/-- A header and its value. -/
def header (name value : String) : Σ _ : Str, Str := ⟨literal name, literal value⟩

/-- Two spellings of a header, in the two orders. -/
def spellings : GoMap Str Str :=
  ⟨[header "foo" "1", header "FOO" "2"], show (List.map _ _).Nodup by decide⟩

def spellingsReversed : GoMap Str Str :=
  ⟨[header "FOO" "2", header "foo" "1"], show (List.map _ _).Nodup by decide⟩

/-- The values of `Foo` are `2` and `1`. -/
theorem spellings_order_shows :
    ¬Shielded id (newSanitizer id []) ⟨literal "10.0.0.1", literal "t"⟩ spellings := by
  intro hshielded
  have hperm : ∀ name, spellings.lookup name = spellingsReversed.lookup name :=
    fun name => List.perm_dlookup name spellings.nodupKeys (List.Perm.swap _ _ _)
  have hsame := hshielded.determined (newSanitizer id []) spellingsReversed (fun _ => Iff.rfl)
    (fun name _ => hperm name) (literal "Foo")
  exact absurd hsame (by decide +kernel)

end Sanitizer

end HelixCluster.HeaderSanitize
