import JavaAtlas.Completion.Candidates
import JavaAtlas.Proofs.Index.Hierarchy
import JavaAtlas.Proofs.Text.ByteOrder
import JavaAtlas.Proofs.Unit.Supertypes

/-!
# What super stands for

A declaration notes the type it extends in front of those it implements. The index keeps no such
order: it knows the supertypes of a type by name, and `super` is taken for the first of them. So in a
class that is declared once `super` stands for the least name among its supertypes, which is that of
the superclass only if no interface comes before it.
-/

namespace JavaAtlas

set_option autoImplicit false

open Std (TransCmp OrientedCmp)
open Java (Tree Phrase Field)

/-! ## Bound units -/

/-- The symbols of a syntax tree of the file, however spelled, whose names were bound. -/
def FileSymbols.BoundFrom (f : FileSymbols) (path : Path) (text : String) (root : Tree)
    (a : AttributedUnit) : Prop :=
  ∃ (spelled : Path) (print : Fingerprint) (level : LanguageLevel) (diagnostics : List Diagnostic)
    (ctx : TypeLookup), compare spelled path = .eq ∧
      a = (SourceUnit.ofTree text root spelled print level diagnostics).bindTypes ctx ∧
      f = Extraction.ofAttributed a

def IndexChange.Attributed : IndexChange → Prop
  | upsert path _ symbols => ∃ text root a, symbols.BoundFrom path text root a
  | remove _ => True
  | clear => True

def FileSymbols.typesNamed (f : FileSymbols) (fqn : String) : List Symbol :=
  f.symbols.filter fun x => x.isType && x.fqn == fqn

def Snapshot.typesNamed (s : Snapshot) (fqn : String) : List Symbol :=
  s.entries.flatMap fun e => e.symbols.typesNamed fqn

/-- What the index takes a supertype for: the type it is bound to, or else its name as written. -/
def AttributedUnit.supertypeName (a : AttributedUnit) (k : Nat) : String :=
  (a.resolution k).fqn?.getD (((a.source.typeRefs[k]?).map (·.name)).getD "")

namespace Extraction

theorem supertypes_ofAttributed (a : AttributedUnit) :
    (ofAttributed a).supertypes = a.source.visibleTypes.flatMap fun d => d.supertypes.map fun k =>
      ⟨d.fqn, a.supertypeName k, (a.resolution k).fqn?.isSome⟩ := by
  refine List.flatMap_congr fun d _ => List.map_congr_left fun k _ => ?_
  rw [AttributedUnit.supertypeName]
  cases (a.resolution k).fqn? <;> rfl

theorem exists_supertype_iff (a : AttributedUnit) (t f : String) :
    (∃ edge ∈ (ofAttributed a).supertypes, edge.subtype = t ∧ edge.supertype = f) ↔
      ∃ d ∈ a.source.visibleTypes, d.fqn = t ∧ f ∈ d.supertypes.map a.supertypeName := by
  simp only [supertypes_ofAttributed, List.mem_flatMap, List.mem_map]
  constructor
  · rintro ⟨edge, ⟨d, hd, k, hk, rfl⟩, ht, hf⟩
    exact ⟨d, hd, ht, k, hk, hf⟩
  · rintro ⟨d, hd, ht, k, hk, hf⟩
    exact ⟨_, ⟨d, hd, k, hk, rfl⟩, ht, hf⟩

theorem filter_symbolsOf (u : SourceUnit) (t : TypeDecl) (fqn : String) :
    (symbolsOf u t).filter (fun x => x.isType && x.fqn == fqn) =
      if t.fqn == fqn then [typeSymbol u t] else [] := by
  have hmembers : (t.members.map (memberSymbol u t)).filter (fun x => x.isType && x.fqn == fqn) = [] := by
    refine List.filter_eq_nil_iff.mpr fun x hx => ?_
    obtain ⟨m, -, rfl⟩ := List.mem_map.mp hx
    have hkind : (memberSymbol u t m).isType = false := by
      cases hm : m.kind <;> simp [memberSymbol, Symbol.isType, MemberKind.symbolKind, hm]
    simp [hkind]
  rw [symbolsOf, List.filter_cons, hmembers]
  rfl

/-- The types of a name are the symbols of the visible declarations of that name. -/
theorem perm_filter_declarations (u : SourceUnit) (fqn : String) :
    (((declarations u).filter fun x => x.isType && x.fqn == fqn).map Symbol.unnumbered).Perm
      ((u.visibleTypes.filter fun d => d.fqn == fqn).map (typeSymbol u)) := by
  obtain ⟨ds, hperm, hsymbols, -⟩ := exists_perm_inventory u
  have hfilter : ((declarations u).filter fun x => x.isType && x.fqn == fqn).map Symbol.unnumbered =
      (ds.map (symbolOf u)).filter fun x => x.isType && x.fqn == fqn := by
    rw [← hsymbols, List.filter_map]
    rfl
  have hvisible : (u.visibleTypes.filter fun d => d.fqn == fqn).map (typeSymbol u) =
      (u.visibleTypes.flatMap (symbolsOf u)).filter fun x => x.isType && x.fqn == fqn := by
    rw [List.filter_flatMap]
    simp only [filter_symbolsOf]
    induction u.visibleTypes with
    | nil => rfl
    | cons d rest ih =>
      rw [List.flatMap_cons, ← ih, List.filter_cons]
      split <;> rfl
  rw [hfilter, hvisible, flatMap_symbolsOf]
  exact (hperm.map _).filter _

end Extraction

namespace FileSymbols.BoundFrom

variable {f : FileSymbols} {path : Path} {text : String} {root : Tree} {a : AttributedUnit}
  {d d' : TypeDecl} {fqn : String}

theorem symbols_eq (h : f.BoundFrom path text root a) : f = Extraction.ofAttributed a := by
  obtain ⟨_, _, _, _, _, -, -, heq⟩ := h
  exact heq

theorem notes (h : f.BoundFrom path text root a) (hd : d ∈ a.source.visibleTypes) :
    Java.Notes text (root.places []) a.source d := by
  obtain ⟨spelled, print, level, diagnostics, _, -, rfl, -⟩ := h
  exact SourceUnit.notes_ofTree text root spelled print level diagnostics d (List.mem_of_mem_filter hd)

theorem perm_typesNamed (h : f.BoundFrom path text root a) (fqn : String) :
    ((f.typesNamed fqn).map Symbol.unnumbered).Perm
      ((a.source.visibleTypes.filter fun d => d.fqn == fqn).map (Extraction.typeSymbol a.source)) := by
  rw [h.symbols_eq]
  exact Extraction.perm_filter_declarations a.source fqn

theorem typesNamed_ne_nil (h : f.BoundFrom path text root a) (hd : d ∈ a.source.visibleTypes) :
    f.typesNamed d.fqn ≠ [] := by
  intro hnil
  have hperm := h.perm_typesNamed d.fqn
  rw [hnil, List.map_nil, List.nil_perm, List.map_eq_nil_iff] at hperm
  exact List.filter_eq_nil_iff.mp hperm d hd (beq_self_eq_true _)

/-- If the file has one type of the name, then one declaration. -/
theorem eq_of_typesNamed_eq (h : f.BoundFrom path text root a) {t : Symbol}
    (honce : f.typesNamed fqn = [t]) (hd : d ∈ a.source.visibleTypes) (hfqn : d.fqn = fqn)
    (hd' : d' ∈ a.source.visibleTypes) (hfqn' : d'.fqn = fqn) : d' = d := by
  have hlength := (h.perm_typesNamed fqn).length_eq
  rw [honce, List.map_singleton, List.length_singleton, List.length_map] at hlength
  obtain ⟨d₀, hd₀⟩ := List.length_eq_one_iff.mp hlength.symm
  have heq {d : TypeDecl} (hd : d ∈ a.source.visibleTypes) (hfqn : d.fqn = fqn) : d = d₀ := by
    have hmem : d ∈ a.source.visibleTypes.filter fun d => d.fqn == fqn :=
      List.mem_filter.mpr ⟨hd, beq_iff_eq.mpr hfqn⟩
    rw [hd₀] at hmem
    exact List.mem_singleton.mp hmem
  rw [heq hd' hfqn', heq hd hfqn]

end FileSymbols.BoundFrom

/-! ## Supertypes by name -/

namespace Snapshot

variable {s : Snapshot}

/-- Supertypes stand in the order of their names. -/
theorem increasing_supertypesOf (s : Snapshot) (t : String) :
    (s.supertypesOf t).Pairwise fun f g => compare f g = .lt := by
  refine increasing_dropRepeats compare ?_ fun f _ g _ h => ?_
  · refine List.pairwise_map.mpr ((MultiMap.increasing_lookup s.supertypes t).imp fun {f g} hlt => ?_)
    have hlex : (compare f.name g.name).then (compare f.path g.path) = .lt := hlt
    rcases Ordering.then_eq_lt.mp hlex with hname | ⟨hname, -⟩ <;> simp [hname]
  · exact beq_iff_eq.mpr (Std.LawfulEqOrd.eq_of_compare h)

/-- The first name is the least. -/
theorem head?_eq_some_iff_of_increasing {names : List String}
    (h : names.Pairwise fun f g => compare f g = .lt) (f : String) :
    names.head? = some f ↔ f ∈ names ∧ ∀ g ∈ names, Text.encode f ≤ Text.encode g := by
  cases names with
  | nil => simp
  | cons first rest =>
    rw [List.pairwise_cons] at h
    rw [List.head?_cons, Option.some.injEq]
    constructor
    · rintro rfl
      refine ⟨List.mem_cons_self, List.forall_mem_cons.mpr ⟨List.le_refl _, fun g hg => ?_⟩⟩
      rw [Text.encode_le_iff, h.1 g hg]
      rfl
    · rintro ⟨hf, hleast⟩
      have hle := Text.encode_le_iff.mp (hleast first List.mem_cons_self)
      rcases List.mem_cons.mp hf with rfl | hf
      · rfl
      · rw [OrientedCmp.gt_of_lt (h.1 f hf)] at hle
        cases hle

/-- A single result comes from a single element. -/
theorem eq_of_flatMap_eq_singleton {α β : Type} {f : α → List β} {xs : List α} {b : β}
    (h : xs.flatMap f = [b]) {x y : α} (hx : x ∈ xs) (hy : y ∈ xs) (hfx : f x ≠ [])
    (hfy : f y ≠ []) : x = y ∧ f x = [b] := by
  induction xs with
  | nil => cases hx
  | cons z zs ih =>
    rw [List.flatMap_cons, List.append_eq_singleton_iff] at h
    rcases h with ⟨hz, hzs⟩ | ⟨hz, hzs⟩
    · have htail {w : α} (hw : w ∈ z :: zs) (hfw : f w ≠ []) : w ∈ zs :=
        (List.mem_cons.mp hw).resolve_left fun heq => hfw (heq ▸ hz)
      exact ih hzs (htail hx hfx) (htail hy hfy)
    · have hhead {w : α} (hw : w ∈ z :: zs) (hfw : f w ≠ []) : w = z :=
        (List.mem_cons.mp hw).resolve_right fun hw => hfw (List.flatMap_eq_nil_iff.mp hzs w hw)
      rw [hhead hx hfx, hhead hy hfy]
      exact ⟨rfl, hz⟩

/-- Where the one type of a name is declared, that declaration says what its supertypes are. -/
theorem mem_supertypesOf_iff_of_once {changes : List IndexChange}
    (hchanges : ∀ change ∈ changes, change.Attributed) {t : Symbol}
    (honce : (applyAll {} changes).typesNamed t.fqn = [t]) {e : FileEntry}
    (he : e ∈ (applyAll {} changes).entries) {text : String} {root : Tree} {a : AttributedUnit}
    (ha : e.symbols.BoundFrom e.path text root a) {d : TypeDecl} (hd : d ∈ a.source.visibleTypes)
    (hfqn : d.fqn = t.fqn) (f : String) :
    f ∈ (applyAll {} changes).supertypesOf t.fqn ↔ f ∈ d.supertypes.map a.supertypeName := by
  have h : (applyAll {} changes).Exact := (exact_of_empty 0).applyAll changes
  have hedges : (∃ edge ∈ e.symbols.supertypes, edge.subtype = t.fqn ∧ edge.supertype = f) ↔
      ∃ d ∈ a.source.visibleTypes, d.fqn = t.fqn ∧ f ∈ d.supertypes.map a.supertypeName := by
    rw [ha.symbols_eq]
    exact Extraction.exists_supertype_iff a t.fqn f
  have hhere := hfqn ▸ ha.typesNamed_ne_nil hd
  rw [h.mem_supertypesOf_iff, Extends]
  constructor
  · rintro ⟨e', he', hedge⟩
    -- an edge of the type comes from a declaration of it, and so from this file
    have hthere : e'.symbols.typesNamed t.fqn ≠ [] := by
      obtain ⟨text', root', a', ha'⟩ := hchanges _ (put_in_of_mem_entries he')
      rw [ha'.symbols_eq, Extraction.exists_supertype_iff] at hedge
      obtain ⟨d', hd', hfqn', -⟩ := hedge
      exact hfqn' ▸ ha'.typesNamed_ne_nil hd'
    obtain ⟨rfl, hone⟩ := eq_of_flatMap_eq_singleton honce he he' hhere hthere
    obtain ⟨d', hd', hfqn', hf⟩ := hedges.mp hedge
    rwa [ha.eq_of_typesNamed_eq hone hd hfqn hd' hfqn'] at hf
  · intro hf
    exact ⟨e, he, hedges.mpr ⟨d, hd, hfqn, hf⟩⟩

end Snapshot

/-! ## The receiver -/

namespace CompletionRequest

theorem receiverType?_super (r : CompletionRequest) {t : Symbol} (ht : r.enclosing? = some t)
    (head : String) : r.receiverType? head "super" = (r.snapshot.supertypesOf t.fqn).head? := by
  rw [receiverType?, if_neg (by decide), if_pos rfl, ht]
  rfl

/-- Whatever was bound into the index: in a type that is declared once, `super` stands for the least
of the names of its supertypes. So it stands for what the class extends, or for any other supertype,
just if no name among them comes before it. -/
theorem super_is_least {changes : List IndexChange}
    (hchanges : ∀ change ∈ changes, change.Attributed) {r : CompletionRequest}
    (hsnapshot : r.snapshot = Snapshot.applyAll {} changes) {t : Symbol} (ht : r.enclosing? = some t)
    (honce : r.snapshot.typesNamed t.fqn = [t]) {e : FileEntry}
    (he : r.snapshot.file? r.path = some e) {text : String} {root : Tree} {a : AttributedUnit}
    (ha : e.symbols.BoundFrom e.path text root a) {d : TypeDecl} (hd : d ∈ a.source.visibleTypes)
    (hfqn : d.fqn = t.fqn) (head : String) :
    let names := d.supertypes.map a.supertypeName
    Java.Notes text (root.places []) a.source d ∧
      (∀ f, r.receiverType? head "super" = some f ↔
        f ∈ names ∧ ∀ g ∈ names, Text.encode f ≤ Text.encode g) ∧
      ∀ k ∈ d.supertypes, ∀ f, a.resolution k = .named f →
        (r.receiverType? head "super" = some f ↔ ∀ g ∈ names, Text.encode f ≤ Text.encode g) := by
  intro names
  rw [hsnapshot] at honce he
  have h : (Snapshot.applyAll {} changes).Exact := (Snapshot.exact_of_empty 0).applyAll changes
  have hmem := Snapshot.mem_supertypesOf_iff_of_once hchanges honce (h.file?_eq_some_iff.mp he).1 ha
    hd hfqn
  have hleast (f : String) : r.receiverType? head "super" = some f ↔
      f ∈ names ∧ ∀ g ∈ names, Text.encode f ≤ Text.encode g := by
    rw [r.receiverType?_super ht, hsnapshot,
      Snapshot.head?_eq_some_iff_of_increasing (Snapshot.increasing_supertypesOf _ _)]
    simp only [hmem]
    rfl
  refine ⟨ha.notes hd, hleast, fun k hk f hf => ?_⟩
  have hname : f ∈ names := by
    refine List.mem_map.mpr ⟨k, hk, ?_⟩
    rw [AttributedUnit.supertypeName, hf]
    rfl
  rw [hleast, and_iff_right hname]

/-- The interface comes before the superclass. -/
def rivalsText : String := "class Z {} interface B {} class C extends Z implements B { }"

def rivalsTree : Tree :=
  let phrase (p : Phrase) (field : Option Field) (start stop : Nat) (children : List Tree) : Tree :=
    .node { kind := .phrase p, field := field, span := .clamp start stop } children
  let name (start : Nat) : Tree := phrase .identifier (some .name) start (start + 1) []
  let type (start : Nat) : Tree := phrase .typeIdentifier none start (start + 1) []
  phrase .program none 0 60 [
    phrase .classDeclaration none 0 10 [name 6, phrase .classBody (some .body) 8 10 []],
    phrase .interfaceDeclaration none 11 25 [name 21, phrase .interfaceBody (some .body) 23 25 []],
    phrase .classDeclaration none 26 60 [name 32,
      phrase .superclass (some .superclass) 34 43 [type 42],
      phrase .superInterfaces none 44 56 [phrase .typeList none 55 56 [type 55]],
      phrase .classBody (some .body) 57 60 []]]

def rivals : AttributedUnit :=
  (SourceUnit.ofTree rivalsText rivalsTree ⟨"/A.java"⟩ default {} []).bindTypes
    ⟨fun _ => false, fun _ => false⟩

/-- Inside the class, with nothing else in the index. -/
def betweenRivals : CompletionRequest where
  snapshot := Snapshot.applyAll {} [.upsert ⟨"/A.java"⟩ default (Extraction.ofAttributed rivals)]
  classpath := .empty
  path := ⟨"/A.java"⟩
  offset := 58
  typed := ""
  text := none

theorem super_is_least_rivals :
    rivals.resolution 0 = .named "Z" ∧ rivals.resolution 1 = .named "B" ∧
      (∃ d ∈ rivals.source.visibleTypes, d.fqn = "C" ∧ d.supertypes = [0, 1] ∧
        Java.Notes rivalsText (rivalsTree.places []) rivals.source d) ∧
      betweenRivals.receiverType? "" "super" = some "B" := by
  have hbound : (Extraction.ofAttributed rivals).BoundFrom ⟨"/A.java"⟩ rivalsText rivalsTree rivals :=
    ⟨⟨"/A.java"⟩, default, {}, [], _, Std.ReflCmp.compare_self, rfl, rfl⟩
  have hchanges : ∀ change ∈ [IndexChange.upsert ⟨"/A.java"⟩ default (Extraction.ofAttributed rivals)],
      change.Attributed := by
    intro change hchange
    rw [List.mem_singleton.mp hchange]
    exact ⟨rivalsText, rivalsTree, rivals, hbound⟩
  obtain ⟨hclass, hZ, hB, haround, honce, hfile⟩ :
      (rivals.source.visibleTypes[2]?).map (fun d => (d.fqn, d.supertypes)) = some ("C", [0, 1]) ∧
        rivals.resolution 0 = .named "Z" ∧ rivals.resolution 1 = .named "B" ∧
        betweenRivals.enclosing?.map (·.fqn) = some "C" ∧
        betweenRivals.snapshot.typesNamed "C" = betweenRivals.enclosing?.toList ∧
        betweenRivals.snapshot.file? ⟨"/A.java"⟩ =
          some ⟨⟨"/A.java"⟩, default, Extraction.ofAttributed rivals⟩ := by
    cbv
  obtain ⟨d, hd, hpair⟩ := Option.map_eq_some_iff.mp hclass
  obtain ⟨hfqn, hsupertypes⟩ := Prod.mk.inj hpair
  obtain ⟨t, ht, htfqn⟩ := Option.map_eq_some_iff.mp haround
  have hmem : d ∈ rivals.source.visibleTypes := List.mem_of_getElem? hd
  rw [ht, Option.toList_some, ← htfqn] at honce
  obtain ⟨hnotes, -, hsuper⟩ := super_is_least hchanges rfl ht honce hfile hbound hmem
    (hfqn.trans htfqn.symm) ""
  refine ⟨hZ, hB, ⟨d, hmem, hfqn, hsupertypes, hnotes⟩, ?_⟩
  rw [hsuper 1 (by simp [hsupertypes]) "B" hB, hsupertypes]
  simp only [List.map_cons, List.map_nil, AttributedUnit.supertypeName, hZ, hB]
  decide

end CompletionRequest

end JavaAtlas
