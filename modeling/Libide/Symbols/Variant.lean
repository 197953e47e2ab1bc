import Mathlib.Data.BitVec

/-! # Symbols across an IPC boundary

`ide_symbol_to_variant` and `ide_symbol_new_from_variant` (`ide-symbol.c`). A symbol becomes an
`a{sv}` dictionary with the keys `kind`, `flags` and `name`, and one key for each location it has; the
decoder reads it back, after unboxing one `v`, and defaults every key that is missing or of another
type. The location codec, `ide_source_location_to_variant` and `ide_source_location_new_from_variant`,
is not among the sources: it is a parameter, and a `NULL` variant gives no location.

Kinds and flags are C enums written with `%i`, so 32-bit integers. A missing `name` decodes to `NULL`,
which `ide_symbol_new` documents as not allowed (unlike the locations, `allow-none`) and which the
encoder cannot write: `"<%s>"` passes it to `g_variant_new_string`, whose precondition rejects it. -/

namespace Libide.Symbols

/-- A `GVariant`, as far as the codec reads and writes it: `i`, `s`, a boxed `v`, an `a{sv}` whose
    entries hold the boxed values, or a value of any other type. -/
inductive Variant
  | int32 (n : BitVec 32)
  | string (s : String)
  | boxed (v : Variant)
  | vardict (entries : List (String × Variant))
  | other (typeString : String)
  deriving Repr

/-- `GVariantDict` over an `a{sv}`: a key that comes twice keeps its last value. -/
def lookup : List (String × Variant) → String → Option Variant
  | [], _ => none
  | (k, v) :: es, key => (lookup es key).or (if k = key then some v else none)

/-- `g_variant_dict_lookup (&dict, key, "i", &out)`, falling back to `0`. -/
def lookupInt32 (es : List (String × Variant)) (key : String) : BitVec 32 :=
  match lookup es key with
  | some (.int32 n) => n
  | _ => 0

/-- `g_variant_dict_lookup (&dict, key, "&s", &out)`, falling back to `NULL`. -/
def lookupString (es : List (String × Variant)) (key : String) : Option String :=
  match lookup es key with
  | some (.string s) => some s
  | _ => none

/-- `IdeSymbol`. -/
structure Symbol (Loc : Type) where
  kind : BitVec 32
  flags : BitVec 32
  name : Option String
  declarationLocation : Option Loc
  definitionLocation : Option Loc
  canonicalLocation : Option Loc
  deriving DecidableEq, Repr

section Codec
variable {Loc : Type} (locToVariant : Loc → Variant) (locOfVariant : Variant → Option Loc)

/-- `ide_symbol_new`: the name copied, each location present taken. -/
def Symbol.new (name : Option String) (kind flags : BitVec 32) (declaration definition canonical : Option Loc) :
    Symbol Loc :=
  ⟨kind, flags, name, declaration, definition, canonical⟩

/-- The entry `{key, <location>}` when the location is there. -/
def locationEntry (key : String) : Option Loc → List (String × Variant)
  | some l => [(key, locToVariant l)]
  | none => []

/-- `ide_symbol_to_variant`; `none` where a `GVariant` precondition fails, which is a `NULL` name. -/
def toVariant (s : Symbol Loc) : Option Variant :=
  s.name.map fun name =>
    .vardict ([("kind", .int32 s.kind), ("flags", .int32 s.flags), ("name", .string name)] ++
      locationEntry locToVariant "declaration" s.declarationLocation ++
      locationEntry locToVariant "definition" s.definitionLocation ++
      locationEntry locToVariant "canonical" s.canonicalLocation)

/-- `ide_symbol_new_from_variant`, on a variant or `NULL`. -/
def newFromVariant : Option Variant → Option (Symbol Loc)
  | none => none
  | some variant =>
    let variant := match variant with
      | .boxed v => v
      | v => v
    match variant with
    | .vardict es =>
      some (Symbol.new (lookupString es "name") (lookupInt32 es "kind") (lookupInt32 es "flags")
        ((lookup es "declaration").bind locOfVariant) ((lookup es "definition").bind locOfVariant)
        ((lookup es "canonical").bind locOfVariant))
    | _ => none

/-- The locations of `s` after each went through `f`. -/
def Symbol.mapLocations (f : Loc → Option Loc) (s : Symbol Loc) : Symbol Loc :=
  { s with
    declarationLocation := s.declarationLocation.bind f
    definitionLocation := s.definitionLocation.bind f
    canonicalLocation := s.canonicalLocation.bind f }

/-! ### Lookups in an encoded symbol -/

theorem lookup_append (es es' : List (String × Variant)) (key : String) :
    lookup (es ++ es') key = (lookup es' key).or (lookup es key) := by
  induction es with
  | nil => simp [lookup]
  | cons e es ih => simp [lookup, ih, Option.or_assoc]

@[simp] theorem lookup_locationEntry (k key : String) (o : Option Loc) :
    lookup (locationEntry locToVariant k o) key = if k = key then o.map locToVariant else none := by
  cases o <;> simp [locationEntry, lookup]

/-- Decoding an encoded symbol gives back its kind, flags and name, and each location it has, through
    the location codec. -/
theorem newFromVariant_toVariant {s : Symbol Loc} {v : Variant} (h : toVariant locToVariant s = some v) :
    newFromVariant locOfVariant (some v) = some (s.mapLocations (fun l => locOfVariant (locToVariant l))) := by
  obtain ⟨name, hname, rfl⟩ := Option.map_eq_some'.mp h
  cases s
  cases hname
  simp [newFromVariant, lookupString, lookupInt32, lookup_append, lookup, Symbol.new, Symbol.mapLocations,
    Option.bind_map, Function.comp_def]

/-- Every symbol with a name encodes, plainly or boxed once in a `v`, to what decodes back to its
    kind, flags and name, its locations through the location codec, so to the symbol itself where the
    location decoder undoes the location encoder. -/
theorem toVariant_roundTrip (s : Symbol Loc) (hname : s.name.isSome) :
    ∃ v, toVariant locToVariant s = some v ∧
      newFromVariant locOfVariant (some v) = some (s.mapLocations fun l => locOfVariant (locToVariant l)) ∧
      newFromVariant locOfVariant (some (.boxed v)) = some (s.mapLocations fun l => locOfVariant (locToVariant l)) ∧
      ((∀ l, locOfVariant (locToVariant l) = some l) → s.mapLocations (fun l => locOfVariant (locToVariant l)) = s) := by
  obtain ⟨v, hv⟩ := Option.isSome_iff_exists.mp (show (toVariant locToVariant s).isSome by simpa [toVariant])
  have hdec := newFromVariant_toVariant locToVariant locOfVariant hv
  refine ⟨v, hv, hdec, ?_, fun hloc => ?_⟩
  · obtain ⟨_, -, rfl⟩ := Option.map_eq_some'.mp hv
    exact hdec
  · cases s
    simp [Symbol.mapLocations, hloc]

/-- A location codec that writes a location as one `int32`. -/
def int32Location : Variant → Option (BitVec 32)
  | .int32 n => some n
  | _ => none

theorem toVariant_roundTrip_int32 :
    ∃ v, toVariant .int32 (⟨5, 1, some "main", some 7, none, none⟩ : Symbol (BitVec 32)) = some v ∧
      newFromVariant int32Location (some v) = some ⟨5, 1, some "main", some 7, none, none⟩ ∧
      newFromVariant int32Location (some (.boxed v)) = some ⟨5, 1, some "main", some 7, none, none⟩ := by
  obtain ⟨v, hv, hdec, hboxed, hself⟩ :=
    toVariant_roundTrip Variant.int32 int32Location ⟨5, 1, some "main", some 7, none, none⟩ rfl
  rw [hself fun _ => rfl] at hdec hboxed
  exact ⟨v, hv, hdec, hboxed⟩

/-! ### Encoding on decoding's image -/

theorem mapLocations_eq_self {f : Loc → Option Loc} {s : Symbol Loc}
    (hf : ∀ o ∈ [s.declarationLocation, s.definitionLocation, s.canonicalLocation], ∀ l, o = some l → f l = some l) :
    s.mapLocations f = s := by
  obtain ⟨k, fl, n, d, e, c⟩ := s
  simp only [List.mem_cons, List.mem_singleton, List.not_mem_nil, or_false, forall_eq_or_imp, forall_eq] at hf
  obtain ⟨hd, he, hc⟩ := hf
  simp only [Symbol.mapLocations, Symbol.mk.injEq, true_and]
  refine ⟨?_, ?_, ?_⟩
  · cases d <;> simp [hd]
  · cases e <;> simp [he]
  · cases c <;> simp [hc]

/-- Every location of a decoded symbol is what the location decoder made of some variant. -/
theorem newFromVariant_locations {w : Option Variant} {s : Symbol Loc} (h : newFromVariant locOfVariant w = some s) :
    ∀ o ∈ [s.declarationLocation, s.definitionLocation, s.canonicalLocation], ∀ l, o = some l →
      ∃ v, locOfVariant v = some l := by
  match w, h with
  | some w, h =>
    simp only [newFromVariant] at h
    split at h
    · cases h
      simp only [Symbol.new, List.mem_cons, List.mem_singleton, List.not_mem_nil, or_false]
      rintro o (rfl | rfl | rfl) l hl <;> obtain ⟨v, -, hv⟩ := Option.bind_eq_some.mp hl <;> exact ⟨v, hv⟩
    · cases h

/-- On decoding's image, a symbol with a name encodes, and decodes back to itself where the location
    decoder undoes the encoder on the locations it makes. -/
theorem newFromVariant_reencodes (hloc : ∀ v l, locOfVariant v = some l → locOfVariant (locToVariant l) = some l)
    {w : Option Variant} {s : Symbol Loc} (h : newFromVariant locOfVariant w = some s) (hname : s.name.isSome) :
    ∃ v, toVariant locToVariant s = some v ∧ newFromVariant locOfVariant (some v) = some s := by
  obtain ⟨v, hv⟩ := Option.isSome_iff_exists.mp (show (toVariant locToVariant s).isSome by simpa [toVariant])
  refine ⟨v, hv, (newFromVariant_toVariant locToVariant locOfVariant hv).trans
    (congrArg some (mapLocations_eq_self fun o ho l hl => ?_))⟩
  obtain ⟨v', hv'⟩ := newFromVariant_locations locOfVariant h o ho l hl
  exact hloc v' l hv'

theorem newFromVariant_reencodes_int32 :
    (∀ v l, int32Location v = some l → int32Location (.int32 l) = some l) ∧
      newFromVariant int32Location (some (.vardict [("name", .string "main"), ("kind", .string "x"),
        ("declaration", .int32 7)])) = some ⟨0, 0, some "main", some 7, none, none⟩ ∧
      (⟨0, 0, some "main", some 7, none, none⟩ : Symbol (BitVec 32)).name.isSome ∧
      ∃ v, toVariant .int32 (⟨0, 0, some "main", some 7, none, none⟩ : Symbol (BitVec 32)) = some v ∧
        newFromVariant int32Location (some v) = some ⟨0, 0, some "main", some 7, none, none⟩ :=
  ⟨fun _ _ _ => rfl, rfl, rfl, newFromVariant_reencodes .int32 int32Location (fun _ _ _ => rfl)
    (w := some (.vardict [("name", .string "main"), ("kind", .string "x"), ("declaration", .int32 7)])) rfl rfl⟩

/-- An `a{sv}` without a `name` decodes to a symbol with a `NULL` name, which does not encode. -/
theorem emptyVardict_not_reencodable :
    newFromVariant locOfVariant (some (.vardict [])) = some ⟨0, 0, none, none, none, none⟩ ∧
      toVariant locToVariant (⟨0, 0, none, none, none, none⟩ : Symbol Loc) = none :=
  ⟨rfl, rfl⟩

end Codec

end Libide.Symbols
