import JavaAtlas.Proofs.Data.MultiMap
import JavaAtlas.Proofs.Index.Lookup
import JavaAtlas.Proofs.Symbols.Bindings

/-!
# What a file declares to others

Symbols that are taken for equal have the same types and are bound to the same types. A type is part
of what other files can observe, so it cannot go while that stays as it was.
-/

namespace JavaAtlas

set_option autoImplicit false

open Std (LawfulEqCmp)

deriving instance ReflBEq for Symbol

deriving instance ReflBEq for FileSymbols

def Symbol.key (s : Symbol) : String × SymbolKind × UInt32 := (s.fqn, s.kind, s.ordinal)

/-- Beyond the spelling of their path equal symbols do not differ. -/
theorem Symbol.eq_with_path_of_beq {a b : Symbol} (h : (a == b) = true) :
    compare a.path b.path = .eq ∧ { a with path := b.path } = b := by
  have hfields : (a.fqn == b.fqn && (a.name == b.name && (a.kind == b.kind &&
      (a.typeKind == b.typeKind && (a.path == b.path && (a.span == b.span &&
        (a.nameSpan == b.nameSpan && (a.signature == b.signature && (a.container == b.container &&
          a.ordinal == b.ordinal))))))))) = true := h
  simp only [Bool.and_eq_true, beq_iff_eq] at hfields
  obtain ⟨hfqn, hname, hkind, htypeKind, hpath, hspan, hnameSpan, hsignature, hcontainer,
    hordinal⟩ := hfields
  refine ⟨beq_iff_eq.mp hpath, ?_⟩
  cases a
  cases b
  simp_all

theorem Symbol.key_eq_of_beq {a b : Symbol} (h : (a == b) = true) : a.key = b.key := by
  rw [← (eq_with_path_of_beq h).2]
  rfl

theorem Symbol.keys_eq_of_beq {as bs : List Symbol} (h : (as == bs) = true) :
    as.map key = bs.map key := by
  induction as generalizing bs with
  | nil =>
    cases bs with
    | nil => rfl
    | cons b bs => simp at h
  | cons a as ih =>
    cases bs with
    | nil => simp at h
    | cons b bs =>
      rw [List.cons_beq_cons, Bool.and_eq_true] at h
      rw [List.map_cons, key_eq_of_beq h.1, ih h.2, List.map_cons]

/-- Equal symbols with one spelling of their path are the same. -/
theorem Symbol.eq_of_beq_of_path {a b : Symbol} (h : (a == b) = true) (hpath : a.path = b.path) :
    a = b := by
  have hrest := (eq_with_path_of_beq h).2
  rwa [← hpath] at hrest

theorem Symbol.types_eq_keys (as : List Symbol) :
    (as.filter isType).map (·.fqn) = ((as.map key).filter fun k => k.2.1 == .type).map (·.1) := by
  rw [List.filter_map, List.map_map]
  rfl

namespace FileSymbols

structure Alike (f g : FileSymbols) : Prop where
  finds : ∀ name, f.Finds name ↔ g.Finds name
  package : f.package = g.package

theorem Alike.refl (f : FileSymbols) : Alike f f := ⟨fun _ => Iff.rfl, rfl⟩

theorem Alike.symm {f g : FileSymbols} (h : Alike f g) : Alike g f :=
  ⟨fun name => (h.finds name).symm, h.package.symm⟩

theorem Alike.trans {f g k : FileSymbols} (h : Alike f g) (h' : Alike g k) : Alike f k :=
  ⟨fun name => (h.finds name).trans (h'.finds name), h.package.trans h'.package⟩

structure SameDeclarations (f g : FileSymbols) : Prop where
  package : f.package = g.package
  symbols : f.symbols = g.symbols

namespace SameDeclarations

variable {f g k : FileSymbols}

theorem trans (h : SameDeclarations f g) (h' : SameDeclarations g k) : SameDeclarations f k :=
  ⟨h.package.trans h'.package, h.symbols.trans h'.symbols⟩

theorem symm (h : SameDeclarations f g) : SameDeclarations g f := ⟨h.package.symm, h.symbols.symm⟩

theorem types (h : SameDeclarations f g) : f.types = g.types := by
  rw [FileSymbols.types, h.symbols, FileSymbols.types]

theorem alike (h : SameDeclarations f g) : Alike f g := by
  refine ⟨fun name => ?_, h.package⟩
  rw [Finds, h.symbols, Finds]

end SameDeclarations

/-- The same declarations, up to the spelling of the path. -/
def declaresAs (f g : FileSymbols) : Bool := f.package == g.package && f.symbols == g.symbols

theorem finds_iff_keys (f : FileSymbols) (name : String) :
    f.Finds name ↔ ∃ k ∈ f.symbols.map Symbol.key, k.1 = name ∧
      ∃ t, (f.symbols.map Symbol.key)[k.2.2.toNat]? = some t ∧ t.2.1 = .type := by
  simp only [Finds, List.mem_map, List.getElem?_map, Option.map_eq_some_iff]
  constructor
  · rintro ⟨s, hs, hname, t, ht, htype⟩
    exact ⟨s.key, ⟨s, hs, rfl⟩, hname, t.key, ⟨t, ht, rfl⟩, beq_iff_eq.mp htype⟩
  · rintro ⟨-, ⟨s, hs, rfl⟩, hname, -, ⟨t, ht, rfl⟩, htype⟩
    exact ⟨s, hs, hname, t, ht, beq_iff_eq.mpr htype⟩

theorem alike_of_declaresAs {f g : FileSymbols} (h : f.declaresAs g = true) : Alike f g := by
  rw [declaresAs, Bool.and_eq_true, beq_iff_eq] at h
  refine ⟨fun name => ?_, h.1⟩
  rw [finds_iff_keys, Symbol.keys_eq_of_beq h.2, ← finds_iff_keys]

/-- Beyond the spelling of paths in their declarations equal symbols do not differ. -/
theorem eq_with_symbols_of_beq {f g : FileSymbols} (h : (f == g) = true) :
    (f.symbols == g.symbols) = true ∧ { f with symbols := g.symbols } = g := by
  have hfields : (f.package == g.package && (f.symbols == g.symbols &&
      (f.references == g.references && (f.calls == g.calls && (f.unresolved == g.unresolved &&
        (f.supertypes == g.supertypes && (f.scopes == g.scopes && (f.diagnostics == g.diagnostics &&
          f.attributed == g.attributed)))))))) = true := h
  simp only [Bool.and_eq_true] at hfields
  obtain ⟨hpackage, hsymbols, hrest⟩ := hfields
  refine ⟨hsymbols, ?_⟩
  cases f
  cases g
  simp_all

theorem declaresAs_of_beq {f g : FileSymbols} (h : (f == g) = true) : f.declaresAs g = true := by
  obtain ⟨hsymbols, hrest⟩ := eq_with_symbols_of_beq h
  rw [← hrest] at hsymbols ⊢
  rw [declaresAs, hsymbols, BEq.rfl, Bool.and_self]

theorem eq_of_beq {f g : FileSymbols} (h : (f == g) = true) :
    f.boundTargets = g.boundTargets ∧ f.types.map (·.fqn) = g.types.map (·.fqn) := by
  obtain ⟨hsymbols, hrest⟩ := eq_with_symbols_of_beq h
  refine ⟨?_, ?_⟩
  · rw [← hrest, boundTargets, boundTargets]
  · rw [types, Symbol.types_eq_keys, Symbol.keys_eq_of_beq hsymbols, ← Symbol.types_eq_keys, types]

def Located (f : FileSymbols) (p : Path) : Prop := ∀ s ∈ f.symbols, s.path = p

theorem eq_of_located {as bs : List Symbol} {p : Path} (h : (as == bs) = true)
    (has : ∀ s ∈ as, s.path = p) (hbs : ∀ s ∈ bs, s.path = p) : as = bs := by
  induction as generalizing bs with
  | nil =>
    cases bs with
    | nil => rfl
    | cons b bs => simp at h
  | cons a as ih =>
    cases bs with
    | nil => simp at h
    | cons b bs =>
      rw [List.cons_beq_cons, Bool.and_eq_true] at h
      rw [List.forall_mem_cons] at has hbs
      rw [Symbol.eq_of_beq_of_path h.1 (has.1.trans hbs.1.symm), ih h.2 has.2 hbs.2]

theorem Located.eq_of_beq {f g : FileSymbols} {p : Path} (hf : f.Located p) (hg : g.Located p)
    (h : (f == g) = true) : f = g := by
  obtain ⟨hsymbols, hrest⟩ := eq_with_symbols_of_beq h
  rwa [← eq_of_located hsymbols hf hg] at hrest

theorem located_declarations (u : SourceUnit) : ∀ s ∈ Extraction.declarations u, s.path = u.path := by
  intro s hs
  rw [Extraction.declarations] at hs
  obtain ⟨e, he, rfl⟩ := List.mem_map.mp hs
  have hmem : e.1 ∈ u.visibleTypes.flatMap (Extraction.symbolsOf u) :=
    List.mem_mergeSort.mp (List.fst_mem_of_mem_zipIdx he)
  obtain ⟨t, -, hmem⟩ := List.mem_flatMap.mp hmem
  rcases List.mem_cons.mp hmem with htype | hmember
  · rw [htype]
    rfl
  · obtain ⟨m, -, hm⟩ := List.mem_map.mp hmember
    rw [← hm]
    rfl

theorem contains_api_iff (f : FileSymbols) (fqn signature : String) :
    f.api.contains ⟨fqn, SymbolKind.type.rank, signature⟩ = true ↔
      (∃ s ∈ f.types, s.fqn = fqn ∧ s.signature = signature) ∨
        ∃ e ∈ f.supertypes, e.subtype = fqn ∧ e.supertype = signature := by
  have hitem (a : ApiItem) : compare (⟨fqn, SymbolKind.type.rank, signature⟩ : ApiItem) a = .eq ↔
      fqn = a.fqn ∧ SymbolKind.type.rank = a.kind ∧ signature = a.signature := by
    have hlex : compare (⟨fqn, SymbolKind.type.rank, signature⟩ : ApiItem) a = .eq ↔
        compare fqn a.fqn = .eq ∧ compare SymbolKind.type.rank a.kind = .eq ∧
          compare signature a.signature = .eq :=
      compareLex_eq_eq.trans (and_congr_right fun _ => compareLex_eq_eq)
    simpa only [LawfulEqCmp.compare_eq_iff_eq] using hlex
  have hkind (s : Symbol) : SymbolKind.type.rank = s.kind.rank ↔ s.isType = true := by
    rw [Symbol.isType]
    cases s.kind <;> decide
  rw [api, SortedSet.contains_ofList]
  simp only [List.any_append, List.any_map, Bool.or_eq_true, List.any_eq_true, Function.comp_apply,
    beq_iff_eq, hitem, hkind, types, List.mem_filter]
  grind

/-- Numbers name declarations as long as a file has no more of them than there are numbers. -/
theorem Sound.mem_types_of_finds {f : FileSymbols} (h : f.Sound)
    (hfew : f.symbols.length ≤ 4294967296) {t : String} (ht : f.Finds t) :
    t ∈ f.types.map (·.fqn) := by
  obtain ⟨symbol, hsymbol, rfl, found, hfound, htype⟩ := ht
  obtain ⟨i, hi, hget⟩ := List.mem_iff_getElem.mp hsymbol
  have hordinal := h.numbered i symbol (by rw [List.getElem?_eq_getElem hi, hget])
  have hnumber : symbol.ordinal.toNat = i := by
    rw [hordinal, Extraction.toNat_ordinalOf (Nat.lt_of_lt_of_le hi hfew)]
  rw [hnumber, List.getElem?_eq_getElem hi, hget] at hfound
  obtain rfl := Option.some.inj hfound
  exact List.mem_map.mpr ⟨symbol, List.mem_filter.mpr ⟨hsymbol, htype⟩, rfl⟩

theorem api_bne_eq_false_iff {f g : FileSymbols} : (f.api != g.api) = false ↔ f.api = g.api := by
  constructor
  · intro h
    have hbeq : (f.api.entries == g.api.entries) = true := by simpa [bne, BEq.beq] using h
    exact SortedMap.ext (LawfulBEq.eq_of_beq hbeq)
  · intro h
    have hbeq : (g.api.entries == g.api.entries) = true := BEq.rfl
    rw [h]
    simpa [bne, BEq.beq] using hbeq

/-- A type is part of what a file declares, so it cannot go while that stays. -/
theorem Sound.mem_types_of_api_eq {f g : FileSymbols} (hg : g.Sound) (h : f.api = g.api)
    {t : String} (ht : t ∈ f.types.map (·.fqn)) : t ∈ g.types.map (·.fqn) := by
  obtain ⟨s, hs, rfl⟩ := List.mem_map.mp ht
  have hitem := (contains_api_iff f s.fqn s.signature).mpr (Or.inl ⟨s, hs, rfl, rfl⟩)
  rw [h, contains_api_iff] at hitem
  rcases hitem with ⟨s', hs', hfqn, -⟩ | ⟨e, he, hfqn, -⟩
  · exact List.mem_map.mpr ⟨s', hs', hfqn⟩
  · rw [← hfqn]
    exact hg.subtypes e he

end FileSymbols

/-- Names are looked up alike where the same is declared. -/
theorem Snapshot.lookup_eq_of_alike {s t : Snapshot} (hs : s.Exact) (ht : t.Exact)
    (hforth : ∀ x ∈ s.entries, ∃ y ∈ t.entries, x.symbols.Alike y.symbols)
    (hback : ∀ y ∈ t.entries, ∃ x ∈ s.entries, y.symbols.Alike x.symbols) : s.lookup = t.lookup := by
  have htypes : s.typeExists = t.typeExists := by
    funext name
    rw [Bool.eq_iff_iff, hs.typeExists_iff, ht.typeExists_iff]
    constructor
    · rintro ⟨x, hx, hname⟩
      obtain ⟨y, hy, halike⟩ := hforth x hx
      exact ⟨y, hy, (halike.finds name).mp hname⟩
    · rintro ⟨y, hy, hname⟩
      obtain ⟨x, hx, halike⟩ := hback y hy
      exact ⟨x, hx, (halike.finds name).mp hname⟩
  have hpackages : s.hasPackage = t.hasPackage := by
    funext name
    rw [Bool.eq_iff_iff, hs.hasPackage_iff, ht.hasPackage_iff]
    constructor
    · rintro ⟨x, hx, hname⟩
      obtain ⟨y, hy, halike⟩ := hforth x hx
      exact ⟨y, hy, halike.package.symm.trans hname⟩
    · rintro ⟨y, hy, hname⟩
      obtain ⟨x, hx, halike⟩ := hback y hy
      exact ⟨x, hx, halike.package.symm.trans hname⟩
  rw [lookup, lookup, htypes, hpackages]

end JavaAtlas
