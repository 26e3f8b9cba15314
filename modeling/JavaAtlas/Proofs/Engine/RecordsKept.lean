import JavaAtlas.Proofs.Engine.Batch
import JavaAtlas.Proofs.Store.Refinement

/-!
# Which records an engine leaves alone

A lookup never takes away a record that can be found, and storing or removing a record touches no
other record file. `KeepsRecords` says this of the paths named by a predicate; what happens to the
record of the file itself is said separately.
-/

namespace JavaAtlas

set_option autoImplicit false

namespace StoreDirectory

/-- There is no record file for the path. -/
def Lacks (d : StoreDirectory) (p : Path) : Prop :=
  ∀ bytes, d.node? (recordName p) ≠ some (.file bytes)

/-- The records of the paths in `kept` can be found, or are missing, as before. -/
structure KeepsRecords (d d' : StoreDirectory) (kept : Path → Prop) : Prop where
  blocked : d'.blocked = d.blocked
  place : ∀ p, kept p → d.node? (recordName p) ≠ some .directory →
    d'.node? (recordName p) ≠ some .directory
  holds : ∀ p r, kept p → d.Holds symbolSchema Codec.fileSymbols p r →
    d'.Holds symbolSchema Codec.fileSymbols p r
  lacks : ∀ p, kept p → d.Lacks p → d'.Lacks p

variable {d d' d'' : StoreDirectory} {kept : Path → Prop} {q : Path}

namespace KeepsRecords

theorem of_node? (hblocked : d'.blocked = d.blocked)
    (hnode : ∀ p, kept p → d'.node? (recordName p) = d.node? (recordName p)) :
    d.KeepsRecords d' kept where
  blocked := hblocked
  place p hp := by
    rw [hnode p hp]
    exact id
  holds p r hp h := by
    refine ⟨?_, h.schema, h.key⟩
    rw [hnode p hp]
    exact h.isRead
  lacks p hp h := by
    rw [Lacks, hnode p hp]
    exact h

theorem refl (d : StoreDirectory) (kept : Path → Prop) : d.KeepsRecords d kept :=
  .of_node? rfl fun _ _ => rfl

theorem trans (h : d.KeepsRecords d' kept) (h' : d'.KeepsRecords d'' kept) :
    d.KeepsRecords d'' kept where
  blocked := h'.blocked.trans h.blocked
  place p hp hplace := h'.place p hp (h.place p hp hplace)
  holds p r hp hr := h'.holds p r hp (h.holds p r hp hr)
  lacks p hp hno := h'.lacks p hp (h.lacks p hp hno)

theorem dropNode (h : ∀ p, kept p → recordName p = recordName q →
    ∀ r, ¬ d.Holds symbolSchema Codec.fileSymbols p r) :
    d.KeepsRecords (d.dropNode (recordName q)) kept := by
  refine ⟨rfl, fun p hp hplace => ?_, fun p r hp hr => ?_, fun p hp hno => ?_⟩
  all_goals by_cases hname : recordName p = recordName q
  · rw [hname, node?_dropNode_self]
    simp
  · rwa [node?_dropNode_of_ne d hname]
  · exact absurd hr (h p hp hname r)
  · refine ⟨?_, hr.schema, hr.key⟩
    rw [node?_dropNode_of_ne d hname]
    exact hr.isRead
  · rw [Lacks, hname, node?_dropNode_self]
    simp
  · rw [Lacks, node?_dropNode_of_ne d hname]
    exact hno

/-- A lookup removes only what it cannot find. -/
theorem load (h : ∀ p, kept p → recordName p = recordName q → p = q) :
    d.KeepsRecords (d.load symbolSchema Codec.fileSymbols q).1 kept := by
  have hdrop (hno : ∀ r, ¬ d.Holds symbolSchema Codec.fileSymbols q r) :
      d.KeepsRecords (d.dropNode (recordName q)) kept :=
    .dropNode fun p hp hname => h p hp hname ▸ hno
  have hfound := found_load d symbolSchema Codec.fileSymbols q
  generalize d.load symbolSchema Codec.fileSymbols q = found at hfound
  cases hfound with
  | hit r hr => exact .refl d kept
  | absent => exact .refl d kept
  | refused _ hno => exact hdrop hno
  | corrupt _ _ _ hno => exact hdrop hno

theorem loadMatching (h : ∀ p, kept p → recordName p = recordName q → p = q) (wanted : Fingerprint) :
    d.KeepsRecords (d.loadMatching symbolSchema Codec.fileSymbols q wanted).1 kept := by
  rcases d.loadMatching_cases symbolSchema Codec.fileSymbols q wanted with
    ⟨r, -, -, hload⟩ | ⟨-, hload⟩
  · rw [hload]
    exact .refl d kept
  · rw [hload]
    exact .load h

theorem store (h : ∀ p, kept p → recordName p ≠ recordName q) {print : Fingerprint}
    {symbols : FileSymbols}
    (hstore : d.store symbolSchema Codec.fileSymbols 0 q print symbols = some d') :
    d.KeepsRecords d' kept := by
  rw [StoreDirectory.store] at hstore
  split at hstore
  · simp at hstore
  · split at hstore
    · simp at hstore
    · rw [← Option.some.inj hstore]
      exact .of_node? rfl fun p hp => node?_setNode_of_ne d (h p hp) _

theorem remove (h : ∀ p, kept p → recordName p ≠ recordName q) :
    d.KeepsRecords (d.remove q).1 kept := by
  rw [StoreDirectory.remove]
  split
  · exact .refl d kept
  · split
    · exact .refl d kept
    · exact .of_node? rfl fun p hp => node?_dropNode_of_ne d (h p hp)

end KeepsRecords

/-! ## The record of the file itself -/

theorem isSome_store_iff {print : Fingerprint} {symbols : FileSymbols} :
    (d.store symbolSchema Codec.fileSymbols 0 q print symbols).isSome = true ↔
      d.blocked = false ∧ d.node? (recordName q) ≠ some .directory := by
  rw [StoreDirectory.store]
  split
  · simp_all
  · split <;> simp_all

theorem holds_of_store {print : Fingerprint} {symbols : FileSymbols}
    (hstore : d.store symbolSchema Codec.fileSymbols 0 q print symbols = some d')
    (hfits : ((StoredRecord.codec Codec.fileSymbols).write
      ⟨symbolSchema, 0, pathKey q, print, symbols⟩).length ≤ recordLimit) :
    ∃ r, d'.Holds symbolSchema Codec.fileSymbols q r ∧ r.fingerprint = print ∧
      r.payload = symbols := by
  have hsome : (d.store symbolSchema Codec.fileSymbols 0 q print symbols).isSome = true := by
    rw [hstore]
    rfl
  obtain ⟨hfree, hplace⟩ := isSome_store_iff.mp hsome
  rw [store_of_not_directory hfree hplace] at hstore
  have hstands : d'.Stands symbolSchema Codec.fileSymbols q (some (print, symbols)) := by
    refine ⟨0, hfits, ?_⟩
    rw [← Option.some.inj hstore]
    exact node?_setNode_self d _ _
  exact hstands.holds Codec.faithful_fileSymbols.readsBack

theorem lacks_remove (hfree : d.blocked = false) : (d.remove q).1.Lacks q := by
  intro bytes
  by_cases hplace : d.node? (recordName q) = some .directory
  · have hsame : (d.remove q).1 = d := by simp [remove, hplace]
    rw [hsame, hplace]
    simp
  · rw [remove_of_not_directory hfree hplace, node?_dropNode_self]
    simp

end StoreDirectory

namespace Engine

/-- In the store in use, the records of the paths in `kept` can be found, or are missing, as before. -/
structure KeepsRecords (e e' : Engine) (kept : Path → Prop) : Prop where
  store : e'.store = e.store
  records : ∀ root, e.store = some root →
    (e.directoryAt root).KeepsRecords (e'.directoryAt root) kept

/-- A store in use has the symbols on record for this content. -/
def Recorded (e : Engine) (p : Path) (print : Fingerprint) (symbols : FileSymbols) : Prop :=
  ∀ root, e.store = some root → ∃ r, (e.directoryAt root).Holds symbolSchema Codec.fileSymbols p r ∧
    r.fingerprint = print ∧ r.payload = symbols

/-- A store in use has no record of the file. -/
def Unrecorded (e : Engine) (p : Path) : Prop :=
  ∀ root, e.store = some root → (e.directoryAt root).Lacks p

def StoreFree (e : Engine) : Prop :=
  ∀ root, e.store = some root → (e.directoryAt root).blocked = false

/-- The symbols could be stored now, and their record is within the limit. -/
def Stores (e : Engine) (p : Path) (print : Fingerprint) (symbols : FileSymbols) : Prop :=
  ∀ root, e.store = some root →
    ((e.directoryAt root).store symbolSchema Codec.fileSymbols 0 p print symbols).isSome = true ∧
    ((StoredRecord.codec Codec.fileSymbols).write
      ⟨symbolSchema, 0, pathKey p, print, symbols⟩).length ≤ recordLimit

variable {e e' e'' : Engine} {kept : Path → Prop} {p q : Path} {print : Fingerprint}
  {symbols : FileSymbols}

theorem directoryAt_setDirectory (e : Engine) (root : Path) (d : StoreDirectory) :
    (e.setDirectory root d).directoryAt root = d := by
  simp only [directoryAt, setDirectory, SortedMap.get?_insert_self, Option.getD_some]

namespace KeepsRecords

theorem of_stores_eq (hstore : e'.store = e.store) (hstores : e'.world.stores = e.world.stores) :
    e.KeepsRecords e' kept := by
  refine ⟨hstore, fun root _ => ?_⟩
  rw [directoryAt, directoryAt, hstores]
  exact .refl _ kept

theorem refl (e : Engine) (kept : Path → Prop) : e.KeepsRecords e kept := .of_stores_eq rfl rfl

theorem trans (h : e.KeepsRecords e' kept) (h' : e'.KeepsRecords e'' kept) :
    e.KeepsRecords e'' kept where
  store := h'.store.trans h.store
  records root hroot := (h.records root hroot).trans (h'.records root (h.store.trans hroot))

theorem setDirectory {root : Path} (hroot : e.store = some root) {d : StoreDirectory}
    (h : (e.directoryAt root).KeepsRecords d kept) : e.KeepsRecords (e.setDirectory root d) kept := by
  refine ⟨rfl, fun root' hroot' => ?_⟩
  obtain rfl : root = root' := Option.some.inj (hroot.symm.trans hroot')
  rw [directoryAt_setDirectory]
  exact h

theorem recorded (h : e.KeepsRecords e' kept) (hp : kept p) (hr : e.Recorded p print symbols) :
    e'.Recorded p print symbols := by
  intro root hroot
  rw [h.store] at hroot
  obtain ⟨r, hholds, hfields⟩ := hr root hroot
  exact ⟨r, (h.records root hroot).holds p r hp hholds, hfields⟩

theorem unrecorded (h : e.KeepsRecords e' kept) (hp : kept p) (hno : e.Unrecorded p) :
    e'.Unrecorded p := by
  intro root hroot
  rw [h.store] at hroot
  exact (h.records root hroot).lacks p hp (hno root hroot)

theorem storeFree (h : e.KeepsRecords e' kept) (hfree : e.StoreFree) : e'.StoreFree := by
  intro root hroot
  rw [h.store] at hroot
  rw [(h.records root hroot).blocked]
  exact hfree root hroot

theorem stores (h : e.KeepsRecords e' kept) (hp : kept p) (hs : e.Stores p print symbols) :
    e'.Stores p print symbols := by
  intro root hroot
  rw [h.store] at hroot
  obtain ⟨hsome, hfits⟩ := hs root hroot
  obtain ⟨hfree, hplace⟩ := StoreDirectory.isSome_store_iff.mp hsome
  have hkeeps := h.records root hroot
  exact ⟨StoreDirectory.isSome_store_iff.mpr ⟨hkeeps.blocked.trans hfree, hkeeps.place p hp hplace⟩,
    hfits⟩

/-! ## What each operation keeps -/

theorem loadRecord (h : ∀ p, kept p → recordName p = recordName q → p = q) :
    e.KeepsRecords (e.loadRecord q).1 kept := by
  rw [Engine.loadRecord]
  split
  · exact .refl e kept
  · rename_i root hroot
    exact .setDirectory hroot (.load h)

theorem loadMatching (h : ∀ p, kept p → recordName p = recordName q → p = q) (print : Fingerprint) :
    e.KeepsRecords (e.loadMatching q print).1 kept := by
  rw [Engine.loadMatching]
  split
  · exact .refl e kept
  · rename_i root hroot
    exact .setDirectory hroot (.loadMatching h print)

theorem storeRecord (h : ∀ p, kept p → recordName p ≠ recordName q) (print : Fingerprint)
    (symbols : FileSymbols) : e.KeepsRecords (e.storeRecord q print symbols) kept := by
  rw [Engine.storeRecord]
  split
  · exact .refl e kept
  · rename_i root hroot
    split
    · rename_i d hstore
      exact .setDirectory hroot (.store h hstore)
    · exact .refl e kept

theorem removeRecord (h : ∀ p, kept p → recordName p ≠ recordName q) :
    e.KeepsRecords (e.removeRecord q) kept := by
  rw [Engine.removeRecord]
  split
  · exact .refl e kept
  · rename_i root hroot
    exact .setDirectory hroot (.remove h)

theorem cachedSymbols? (h : ∀ p, kept p → recordName p = recordName q → p = q) (file : SourceFile) :
    e.KeepsRecords (e.cachedSymbols? q file).1 kept := by
  have hload := KeepsRecords.loadMatching (e := e) h file.fingerprint
  rw [Engine.cachedSymbols?]
  split
  · rename_i heq
    rw [heq] at hload
    split
    · exact hload
    · split <;> exact hload
  · rename_i heq
    rw [heq] at hload
    exact hload

theorem compute (h : ∀ p, kept p → recordName p ≠ recordName q) (file : SourceFile) :
    e.KeepsRecords (e.compute q file).1 kept := by
  have hparses (parses : ParseCache) : e.KeepsRecords { e with parses := parses } kept :=
    .of_stores_eq rfl rfl
  rw [Engine.compute]
  exact (hparses _).trans (.storeRecord h _ _)

theorem symbolsAgainst (h : ∀ p, kept p → recordName p ≠ recordName q) (before : Snapshot)
    (trigger : Trigger) (file : SourceFile) :
    e.KeepsRecords (e.symbolsAgainst before q trigger file).1 kept := by
  have hsymbols : { e with index := before }.KeepsRecords
      ({ e with index := before }.symbolsOf q trigger file).1 kept := by
    cases trigger with
    | dependency => exact .compute h file
    | content =>
      have hcached := KeepsRecords.cachedSymbols? (e := { e with index := before })
        (fun p hp hname => absurd hname (h p hp)) file
      rw [symbolsOf]
      split
      · rename_i heq
        rw [heq] at hcached
        exact hcached
      · rename_i heq
        rw [heq] at hcached
        exact hcached.trans (.compute h file)
  have hindexed (e : Engine) (index : Snapshot) : e.KeepsRecords { e with index := index } kept :=
    .of_stores_eq rfl rfl
  exact ((hindexed e before).trans hsymbols).trans (hindexed _ e.index)

theorem hintsFor {paths : List Path}
    (h : ∀ q ∈ paths, ∀ p, kept p → recordName p = recordName q → p = q) (e : Engine) :
    e.KeepsRecords (hintsFor paths e).1 kept := by
  induction paths generalizing e with
  | nil => exact .refl e kept
  | cons path rest ih =>
    have hload := KeepsRecords.loadRecord (e := e) (h path List.mem_cons_self)
    rcases hfound : e.loadRecord path with ⟨e₁, found⟩
    rw [hfound] at hload
    have hfile : e₁.KeepsRecords { e₁ with registry := (e₁.registry.file path).1 } kept :=
      .of_stores_eq rfl rfl
    have hrest := (hload.trans hfile).trans (ih (fun q hq => h q (List.mem_cons_of_mem _ hq)) _)
    simp only [Engine.hintsFor, hfound]
    cases found <;> exact hrest

theorem orderBatch {paths : List Path}
    (h : ∀ q ∈ paths, ∀ p, kept p → recordName p = recordName q → p = q) (e : Engine) :
    e.KeepsRecords (e.orderBatch paths).1 kept := by
  rw [Engine.orderBatch]
  cases he : e.store with
  | none => exact .refl e kept
  | some root => exact .hintsFor (fun q hq => h q (SortedSet.mem_of_mem_ofList hq)) e

end KeepsRecords

/-! ## What is on record after an analysis -/

theorem recorded_of_hit {found : Fingerprint} (h : (e.loadMatching p print).2 = .hit found symbols) :
    e.Recorded p print symbols := by
  intro root hroot
  rw [loadMatching, hroot] at h
  obtain ⟨rfl, hload⟩ := StoreDirectory.loadMatching_eq_hit_iff.mp h
  exact StoreDirectory.load_eq_hit_iff.mp hload

theorem recorded_cachedSymbols? {file : SourceFile} (h : (e.cachedSymbols? p file).2 = some symbols) :
    (e.cachedSymbols? p file).1.Recorded p file.fingerprint symbols := by
  have hself : ∀ q, q = p → recordName q = recordName p → q = p := fun _ hq _ => hq
  refine (KeepsRecords.cachedSymbols? hself file).recorded rfl ?_
  rw [cachedSymbols?] at h
  split at h
  · rename_i found cached hload
    have hhit : (e.loadMatching p file.fingerprint).2 = .hit found cached := by rw [hload]
    have hrecorded := recorded_of_hit hhit
    split at h
    · simp at h
    · split at h
      · simp at h
      · rwa [← Option.some.inj h]
  · simp at h

theorem recorded_storeRecord (h : e.Stores p print symbols) :
    (e.storeRecord p print symbols).Recorded p print symbols := by
  intro root hroot
  rw [(agrees_storeRecord e p print symbols).store] at hroot
  obtain ⟨hsome, hfits⟩ := h root hroot
  obtain ⟨d, hd⟩ := Option.isSome_iff_exists.mp hsome
  simp only [storeRecord, hroot, hd, directoryAt_setDirectory]
  exact StoreDirectory.holds_of_store hd hfits

theorem recorded_compute {file : SourceFile}
    (h : e.Stores p file.fingerprint (e.compute p file).2) :
    (e.compute p file).1.Recorded p file.fingerprint (e.compute p file).2 := by
  rw [compute] at h ⊢
  exact recorded_storeRecord h

/-- Whether they were found or computed, the symbols of an analysis are on record once it has
them. -/
theorem recorded_symbolsAgainst {before : Snapshot} {trigger : Trigger} {file : SourceFile}
    (h : (e.symbolsAgainst before p trigger file).2.2 = false →
      e.Stores p file.fingerprint (e.symbolsAgainst before p trigger file).2.1) :
    (e.symbolsAgainst before p trigger file).1.Recorded p file.fingerprint
      (e.symbolsAgainst before p trigger file).2.1 := by
  rw [symbolsAgainst] at h ⊢
  have hseen : e.KeepsRecords { e with index := before } (· = p) := .of_stores_eq rfl rfl
  generalize { e with index := before } = seen at h hseen ⊢
  have hsymbols : (seen.symbolsOf p trigger file).1.Recorded p file.fingerprint
      (seen.symbolsOf p trigger file).2.1 := by
    cases trigger with
    | dependency => exact recorded_compute (hseen.stores rfl (h rfl))
    | content =>
      have hcached : seen.KeepsRecords (seen.cachedSymbols? p file).1 (· = p) :=
        .cachedSymbols? (fun _ hq _ => hq) file
      have hhit (found : FileSymbols) (hfound : (seen.cachedSymbols? p file).2 = some found) :=
        recorded_cachedSymbols? hfound
      rw [symbolsOf] at h ⊢
      split at h
      · rename_i found heq
        rw [heq] at hhit
        exact hhit found rfl
      · rename_i found heq
        rw [heq] at hcached
        exact recorded_compute ((hseen.trans hcached).stores rfl (h rfl))
  have hindexed : (seen.symbolsOf p trigger file).1.KeepsRecords
      { (seen.symbolsOf p trigger file).1 with index := e.index } (· = p) := .of_stores_eq rfl rfl
  exact hindexed.recorded rfl hsymbols

theorem unrecorded_removeRecord (h : e.StoreFree) : (e.removeRecord p).Unrecorded p := by
  intro root hroot
  rw [(agrees_removeRecord e p).store] at hroot
  simp only [removeRecord, hroot, directoryAt_setDirectory]
  exact StoreDirectory.lacks_remove (h root hroot)

/-- A store is opened only where records can be written. -/
theorem storeFree_adopt (e : Engine) (project : Project) : (e.adopt project).StoreFree := by
  intro root hroot
  simp only [adopt] at hroot ⊢
  generalize ({ e with
    parses := e.parses.setLanguageLevel project.languageLevel
    classpath := .buildLenient e.world.disk project.classpath } : Engine) = e' at hroot ⊢
  rcases e'.openStore_cases project with hopen | ⟨directory, opened, hopened, hopen⟩
  · rw [hopen] at hroot
    simp at hroot
  · rw [hopen] at hroot ⊢
    obtain rfl : directory = root := Option.some.inj hroot
    have hblocked : opened.1.blocked = false := by
      rw [StoreDirectory.openFor] at hopened
      split at hopened
      · simp at hopened
      · rename_i hguard
        have hfree : (e'.directoryAt directory).blocked = false := by
          rw [Bool.or_eq_true, not_or] at hguard
          exact Bool.eq_false_iff.mpr hguard.1
        simp only at hopened
        split at hopened <;> rw [← Option.some.inj hopened] <;> exact hfree
    exact (congrArg (·.blocked) (directoryAt_setDirectory e' directory opened.1)).trans hblocked

end Engine

end JavaAtlas
