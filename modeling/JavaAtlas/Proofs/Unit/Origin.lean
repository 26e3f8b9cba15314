import JavaAtlas.Proofs.Data.SortedMap
import JavaAtlas.Proofs.Unit.Nesting
import JavaAtlas.Unit.ParseCache

/-!
# Where a unit comes from

Reading a tree adds to a unit and leaves alone which file, content and language level it is for. So
a parsed unit carries the fingerprint it was asked for, and is found again under it.
-/

namespace JavaAtlas

set_option autoImplicit false

theorem Java.origin_lower (text : String) (root : Tree) {start : SourceUnit}
    (htypes : start.types = []) (hrefs : start.typeRefs = []) :
    (lower text root start).origin = start.origin :=
  (nested_lower text root.nested_anywhere start htypes hrefs).2.origin

namespace SourceUnit

theorem origin_withDiagnostics (u : SourceUnit) (diagnostics : List Diagnostic) :
    { u with diagnostics := diagnostics }.origin = u.origin := rfl

theorem path_ofTree (text : String) (root : Java.Tree) (path : Path) (print : Fingerprint)
    (level : LanguageLevel) (diagnostics : List Diagnostic) :
    (ofTree text root path print level diagnostics).path = path :=
  congrArg Prod.fst (Java.origin_lower text root rfl rfl)

theorem origin_parse (parser : Java.Parser) (path : Path) (text : String) (print : Fingerprint)
    (level : LanguageLevel) : (parse parser path text print level).origin = (path, print, level) := by
  rw [parse]
  split
  next => rw [origin_withDiagnostics, Java.origin_lower text _ rfl rfl, origin]
  next => rfl

theorem path_parse (parser : Java.Parser) (path : Path) (text : String) (print : Fingerprint)
    (level : LanguageLevel) : (parse parser path text print level).path = path := by
  have h := origin_parse parser path text print level
  rw [origin, Prod.mk.injEq] at h
  exact h.1

theorem fingerprint_parse (parser : Java.Parser) (path : Path) (text : String) (print : Fingerprint)
    (level : LanguageLevel) : (parse parser path text print level).fingerprint = print := by
  have h := origin_parse parser path text print level
  rw [origin, Prod.mk.injEq, Prod.mk.injEq] at h
  exact h.2.1

end SourceUnit

namespace ParseCache

open Std (ReflCmp)

theorem reusable?_congr (c : ParseCache) {p q : Path} (h : compare p q = .eq) (print : Fingerprint) :
    c.reusable? p print = c.reusable? q print := by
  rw [reusable?, cached?, SortedMap.get?_congr _ h, reusable?, cached?]

theorem parseCached_eq (c : ParseCache) (p : Path) (text : String) (print : Fingerprint) :
    (c.parseCached p text print).2 = (c.reusable? p print).getD (c.parse p text print) := by
  rw [parseCached]
  split
  next u hu => rw [hu]; rfl
  next hnone => rw [hnone]; rfl

theorem rules_parseCached (c : ParseCache) (p : Path) (text : String) (print : Fingerprint) :
    (c.parseCached p text print).1.parser = c.parser ∧
      (c.parseCached p text print).1.languageLevel = c.languageLevel := by
  rw [parseCached]
  split <;> exact ⟨rfl, rfl⟩

theorem parse_parseCached (c : ParseCache) (p : Path) (text : String) (print : Fingerprint) :
    (c.parseCached p text print).1.parse = c.parse := by
  obtain ⟨hparser, hlevel⟩ := c.rules_parseCached p text print
  funext q other print'
  rw [parse, hparser, hlevel, parse]

theorem fingerprint_of_reusable? {c : ParseCache} {p : Path} {print : Fingerprint} {u : SourceUnit}
    (h : c.reusable? p print = some u) : u.fingerprint = print :=
  beq_iff_eq.mp (Option.filter_eq_some_iff.mp h).2

theorem reusable?_parseCached_self (c : ParseCache) (p : Path) (text : String) (print : Fingerprint) :
    (c.parseCached p text print).1.reusable? p print = some (c.parseCached p text print).2 := by
  rw [parseCached]
  split
  next u hu => exact hu
  next =>
    have hself : ((c.parse p text print).fingerprint == print) = true := by
      rw [parse, SourceUnit.fingerprint_parse, beq_self_eq_true]
    rw [reusable?, cached?, SortedMap.get?_insert_self, Option.filter_some, if_pos hself]

theorem reusable?_parseCached_of_ne (c : ParseCache) {p q : Path} (hne : compare q p ≠ .eq)
    (text : String) (print print' : Fingerprint) :
    (c.parseCached p text print).1.reusable? q print' = c.reusable? q print' := by
  rw [parseCached]
  split
  next => rfl
  next => rw [reusable?, cached?, SortedMap.get?_insert, if_neg hne, reusable?, cached?]

theorem parseCached_of_reusable? {c : ParseCache} {p : Path} {print : Fingerprint} {u : SourceUnit}
    (h : c.reusable? p print = some u) (text : String) : c.parseCached p text print = (c, u) := by
  rw [parseCached, h]

theorem reusable?_evict {c : ParseCache} {p q : Path} (hne : compare q p ≠ .eq) (print : Fingerprint) :
    (c.evict p).1.reusable? q print = c.reusable? q print := by
  rw [reusable?, cached?, evict, SortedMap.get?_erase, if_neg hne, reusable?, cached?]

end ParseCache

end JavaAtlas
