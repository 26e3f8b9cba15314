import JavaAtlas.Proofs.Engine.Effect
import JavaAtlas.Proofs.Store.Filed

/-!
# What an engine does to its stores

An engine looks records up, removes and stores them, and opens a directory for a project. So what
none of this breaks in a directory holds of every directory at any time.
-/

namespace JavaAtlas

set_option autoImplicit false

/-- No operation breaks it, apart from storing a record. -/
structure StoreDirectory.Lasts (P : StoreDirectory → Prop) : Prop where
  default : P default
  load : ∀ d path, P d → P (d.load symbolSchema Codec.fileSymbols path).1
  loadMatching : ∀ d path print, P d →
    P (d.loadMatching symbolSchema Codec.fileSymbols path print).1
  remove : ∀ d path, P d → P (d.remove path).1
  openFor : ∀ d opened, d.openFor symbolSchema = some opened → P d → P opened.1

/-- Whatever is on record for a path is of a kind. -/
def StoreDirectory.Recorded (kind : Path → StoredRecord FileSymbols → Prop) (d : StoreDirectory) : Prop :=
  ∀ p r, d.Holds symbolSchema Codec.fileSymbols p r → kind p r

namespace StoreDirectory

variable {kind : Path → StoredRecord FileSymbols → Prop}

theorem lasts_recorded (kind : Path → StoredRecord FileSymbols → Prop) : Lasts (Recorded kind) where
  default p r hr := by
    obtain ⟨bytes, hnode, -⟩ := hr.isRead
    simp [node?, default] at hnode
  load _ _ h p r hr := h p r hr.of_load
  loadMatching _ _ _ h p r hr := h p r hr.of_loadMatching
  remove _ _ h p r hr := h p r hr.of_remove
  openFor _ _ hopen h p r hr := h p r (hr.of_openFor hopen)

/-- What is stored for a file comes on record for every path with its key. -/
theorem Recorded.store {d d' : StoreDirectory} (h : d.Recorded kind) {path : Path} {print : Fingerprint}
    {symbols : FileSymbols}
    (hkind : ∀ p r, pathKey p = pathKey path → r.fingerprint = print → r.payload = symbols → kind p r)
    (hstore : d.store symbolSchema Codec.fileSymbols 0 path print symbols = some d') :
    d'.Recorded kind := by
  intro p r hr
  rcases hr.of_store Codec.faithful_fileSymbols.readsBack hstore with hr | ⟨hkey, hprint, hsymbols⟩
  · exact h p r hr
  · exact hkind p r hkey hprint hsymbols

end StoreDirectory

def World.Every (P : StoreDirectory → Prop) (w : World) : Prop :=
  ∀ root d, w.stores.get? root = some d → P d

theorem World.every_of_isEmpty {P : StoreDirectory → Prop} {w : World} (h : w.stores = ∅) :
    w.Every P := by
  intro root d hd
  simp [h, EmptyCollection.emptyCollection] at hd

namespace Engine

variable {P : StoreDirectory → Prop} {e : Engine}

theorem every_directoryAt (hlasts : StoreDirectory.Lasts P) (h : e.world.Every P) (root : Path) :
    P (e.directoryAt root) := by
  rw [directoryAt]
  cases hd : e.world.stores.get? root with
  | none => exact hlasts.default
  | some d => exact h root d hd

theorem every_setDirectory (h : e.world.Every P) (root : Path) {d : StoreDirectory} (hd : P d) :
    (e.setDirectory root d).world.Every P := by
  intro other d' hd'
  simp only [setDirectory, SortedMap.get?_insert] at hd'
  split at hd'
  · rwa [← Option.some.inj hd']
  · exact h other d' hd'

theorem every_loadRecord (hlasts : StoreDirectory.Lasts P) (h : e.world.Every P) (path : Path) :
    (e.loadRecord path).1.world.Every P := by
  rw [loadRecord]
  split
  · exact h
  · exact every_setDirectory h _ (hlasts.load _ path (every_directoryAt hlasts h _))

theorem every_loadMatching (hlasts : StoreDirectory.Lasts P) (h : e.world.Every P) (path : Path)
    (print : Fingerprint) : (e.loadMatching path print).1.world.Every P := by
  rw [loadMatching]
  split
  · exact h
  · exact every_setDirectory h _ (hlasts.loadMatching _ path print (every_directoryAt hlasts h _))

theorem recorded_of_loadMatching {kind : Path → StoredRecord FileSymbols → Prop}
    (h : e.world.Every (StoreDirectory.Recorded kind)) {path : Path} {print found : Fingerprint}
    {symbols : FileSymbols} (hhit : (e.loadMatching path print).2 = .hit found symbols) :
    ∃ r, kind path r ∧ r.fingerprint = print ∧ r.payload = symbols := by
  rw [loadMatching] at hhit
  split at hhit
  · simp at hhit
  · obtain ⟨rfl, hload⟩ := StoreDirectory.loadMatching_eq_hit_iff.mp hhit
    obtain ⟨r, hr, hprint, hsymbols⟩ := StoreDirectory.load_eq_hit_iff.mp hload
    exact ⟨r, every_directoryAt (StoreDirectory.lasts_recorded kind) h _ path r hr, hprint, hsymbols⟩

theorem recorded_of_loadRecord {kind : Path → StoredRecord FileSymbols → Prop}
    (h : e.world.Every (StoreDirectory.Recorded kind)) {path : Path} {found : Fingerprint}
    {symbols : FileSymbols} (hhit : (e.loadRecord path).2 = .hit found symbols) :
    ∃ r, kind path r ∧ r.fingerprint = found ∧ r.payload = symbols := by
  rw [loadRecord] at hhit
  split at hhit
  · simp at hhit
  · obtain ⟨r, hr, hprint, hsymbols⟩ := StoreDirectory.load_eq_hit_iff.mp hhit
    exact ⟨r, every_directoryAt (StoreDirectory.lasts_recorded kind) h _ path r hr, hprint, hsymbols⟩

theorem every_storeRecord (hlasts : StoreDirectory.Lasts P) (h : e.world.Every P) (path : Path)
    (print : Fingerprint) {symbols : FileSymbols}
    (hstore : ∀ d d', P d →
      d.store symbolSchema Codec.fileSymbols 0 path print symbols = some d' → P d') :
    (e.storeRecord path print symbols).world.Every P := by
  rw [storeRecord]
  split
  · exact h
  · split
    · rename_i d hd
      exact every_setDirectory h _ (hstore _ d (every_directoryAt hlasts h _) hd)
    · exact h

theorem every_removeRecord (hlasts : StoreDirectory.Lasts P) (h : e.world.Every P) (path : Path) :
    (e.removeRecord path).world.Every P := by
  rw [removeRecord]
  split
  · exact h
  · exact every_setDirectory h _ (hlasts.remove _ path (every_directoryAt hlasts h _))

theorem every_openStore (hlasts : StoreDirectory.Lasts P) (h : e.world.Every P) (project : Project) :
    (e.openStore project).1.world.Every P := by
  rcases e.openStore_cases project with hopen | ⟨directory, opened, hopened, hopen⟩
  · rw [hopen]
    exact h
  · rw [hopen]
    exact every_setDirectory h directory
      (hlasts.openFor _ opened hopened (every_directoryAt hlasts h directory))

theorem every_adopt (hlasts : StoreDirectory.Lasts P) (h : e.world.Every P) (project : Project) :
    (e.adopt project).world.Every P :=
  every_openStore (e := { e with
    parses := e.parses.setLanguageLevel project.languageLevel
    classpath := .buildLenient e.world.disk project.classpath }) hlasts h project

theorem every_cachedSymbols? (hlasts : StoreDirectory.Lasts P) (h : e.world.Every P) (path : Path)
    (file : SourceFile) : (e.cachedSymbols? path file).1.world.Every P := by
  have hload := every_loadMatching hlasts h path file.fingerprint
  rw [cachedSymbols?]
  split
  · rename_i heq
    rw [heq] at hload
    split
    · exact hload
    · split <;> exact hload
  · rename_i heq
    rw [heq] at hload
    exact hload

theorem every_compute (hlasts : StoreDirectory.Lasts P) (h : e.world.Every P) (path : Path)
    (file : SourceFile)
    (hstore : ∀ d d', P d → d.store symbolSchema Codec.fileSymbols 0 path file.fingerprint
      (e.compute path file).2 = some d' → P d') :
    (e.compute path file).1.world.Every P :=
  every_storeRecord (e := { e with
    parses := (e.parses.parseCached path file.text file.fingerprint).1 }) hlasts h path _ hstore

/-- Only the symbols of its unit are stored for a file. -/
theorem every_symbolsOf (hlasts : StoreDirectory.Lasts P) (h : e.world.Every P) (path : Path)
    (trigger : Trigger) (file : SourceFile)
    (hstore : ∀ d d', P d → d.store symbolSchema Codec.fileSymbols 0 path file.fingerprint
      (e.symbolsFor file.text (e.parses.parseCached path file.text file.fingerprint).2) = some d' →
        P d') :
    (e.symbolsOf path trigger file).1.world.Every P := by
  cases trigger with
  | dependency => exact every_compute hlasts h path file hstore
  | content =>
    have hcached := every_cachedSymbols? hlasts h path file
    rw [symbolsOf]
    split
    · rename_i heq
      rw [heq] at hcached
      exact hcached
    · rename_i heq
      rw [heq] at hcached
      rw [← compute_of_cachedSymbols? heq] at hstore
      exact every_compute hlasts hcached path file hstore

theorem every_analyzeFile (hlasts : StoreDirectory.Lasts P) (h : e.world.Every P) (path : Path)
    (trigger : Trigger)
    (hstore : ∀ file, (e.registry.file path).2 = some file → ∀ d d', P d →
      d.store symbolSchema Codec.fileSymbols 0 path file.fingerprint
        (e.symbolsFor file.text (e.parses.parseCached path file.text file.fingerprint).2) = some d' →
          P d') :
    (e.analyzeFile path trigger).1.world.Every P := by
  rcases hfile : e.registry.file path with ⟨registry, _ | file⟩
  · rw [analyzeFile_of_missing hfile]
    exact every_removeRecord hlasts h path
  · rw [analyzeFile_of_found hfile]
    have hread : ({ e with registry := registry } : Engine).world.Every P := h
    simp only
    split
    · exact hread
    · exact every_symbolsOf (e := { e with registry := registry }) hlasts hread path trigger file
        (hstore file (by rw [hfile]))

theorem every_hintsFor (hlasts : StoreDirectory.Lasts P) (paths : List Path) (h : e.world.Every P) :
    (hintsFor paths e).1.world.Every P := by
  induction paths generalizing e with
  | nil => exact h
  | cons path rest ih =>
    have hload := every_loadRecord hlasts h path
    rcases hfound : e.loadRecord path with ⟨e₁, found⟩
    rw [hfound] at hload
    have hrest := ih (e := { e₁ with registry := (e₁.registry.file path).1 }) hload
    simp only [hintsFor, hfound]
    cases found <;> exact hrest

theorem every_orderBatch (hlasts : StoreDirectory.Lasts P) (h : e.world.Every P) (paths : List Path) :
    (e.orderBatch paths).1.world.Every P := by
  rw [orderBatch]
  cases e.store with
  | none => exact h
  | some root => exact every_hintsFor hlasts _ h

theorem every_schedule (hlasts : StoreDirectory.Lasts P) (h : e.world.Every P) (paths : List Path)
    (trigger : Trigger) : (e.schedule paths trigger).world.Every P := by
  rw [schedule_eq]
  exact every_orderBatch hlasts h paths

end Engine

end JavaAtlas
