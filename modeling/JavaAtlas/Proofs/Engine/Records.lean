import JavaAtlas.Proofs.Engine.Stores
import JavaAtlas.Proofs.Store.Written

/-!
# The records an engine leaves

An engine writes only symbols that were extracted from a text. So in stores that only engines have
written to, whatever is found was extracted from some text, of whichever file, against whichever
index and classpath.
-/

namespace JavaAtlas

set_option autoImplicit false

/-- Every record of every store holds symbols extracted from some text. -/
def World.Written (w : World) : Prop :=
  ∀ root d, w.stores.get? root = some d → d.Written Codec.fileSymbols FileSymbols.Extracted

theorem StoreDirectory.lasts_written :
    Lasts fun d => d.Written Codec.fileSymbols FileSymbols.Extracted where
  default := written_default
  load _ path h := (h.load Codec.faithful_fileSymbols symbolSchema path).1
  loadMatching _ path print h := (h.loadMatching Codec.faithful_fileSymbols symbolSchema path print).1
  remove _ path h := h.remove path
  openFor _ _ hopen h := h.openFor hopen

namespace Engine

open StoreDirectory (lasts_written)

theorem Computed.extracted {e : Engine} {symbols : FileSymbols} (h : e.Computed symbols) :
    symbols.Extracted := by
  obtain ⟨text, unit, rfl⟩ := h
  rw [symbolsFor]
  split
  · exact ⟨unit, Or.inl rfl⟩
  · exact ⟨unit, Or.inr ⟨_, rfl⟩⟩

variable {e : Engine}

theorem extracted_of_loadMatching (h : e.world.Written) {path : Path} {print found : Fingerprint}
    {symbols : FileSymbols} (hhit : (e.loadMatching path print).2 = .hit found symbols) :
    symbols.Extracted := by
  rw [loadMatching] at hhit
  split at hhit
  · simp at hhit
  · exact ((every_directoryAt lasts_written h _).loadMatching Codec.faithful_fileSymbols symbolSchema
      path print).2 found symbols hhit

theorem written_removeRecord (h : e.world.Written) (path : Path) :
    (e.removeRecord path).world.Written :=
  every_removeRecord lasts_written h path

/-! ## Analyses -/

theorem Recalled.extracted {path : Path} {file : SourceFile} {symbols : FileSymbols}
    (h : e.Recalled path file symbols) (hwritten : e.world.Written) : symbols.Extracted := by
  obtain ⟨print, hhit⟩ := h.stored
  exact extracted_of_loadMatching hwritten hhit

theorem extracted_symbolsOf (h : e.world.Written) (path : Path) (trigger : Trigger)
    (file : SourceFile) : (e.symbolsOf path trigger file).2.1.Extracted := by
  rcases symbolsOf_spec e path trigger file with hcomputed | ⟨-, hrecalled⟩
  · exact hcomputed.extracted
  · exact hrecalled.extracted h

theorem written_symbolsOf (h : e.world.Written) (path : Path) (trigger : Trigger)
    (file : SourceFile) : (e.symbolsOf path trigger file).1.world.Written :=
  every_symbolsOf lasts_written h path trigger file fun _ _ hd hstore =>
    hd.store (Computed.extracted ⟨_, _, rfl⟩) hstore

theorem written_analyzeFile (h : e.world.Written) (path : Path) (trigger : Trigger) :
    (e.analyzeFile path trigger).1.world.Written :=
  every_analyzeFile lasts_written h path trigger fun _ _ _ _ hd hstore =>
    hd.store (Computed.extracted ⟨_, _, rfl⟩) hstore

theorem written_step (h : e.world.Written) : e.step.world.Written := by
  cases hin : e.inFlight with
  | nil =>
    rw [step_of_nil hin]
    exact h
  | cons job rest =>
    obtain ⟨path, trigger⟩ := job
    obtain ⟨e', a, hanalyze, -, -, hstep⟩ := step_of_cons hin
    have hwritten := written_analyzeFile (e := e.withJobs rest) h path trigger
    rw [hanalyze] at hwritten
    rw [hstep, world_conclude]
    exact hwritten

/-! ## Calls -/

theorem written_orderBatch (h : e.world.Written) (paths : List Path) :
    (e.orderBatch paths).1.world.Written :=
  every_orderBatch lasts_written h paths

theorem written_schedule (h : e.world.Written) (paths : List Path) (trigger : Trigger) :
    (e.schedule paths trigger).world.Written :=
  every_schedule lasts_written h paths trigger

theorem written_adopt (h : e.world.Written) (project : Project) :
    (e.adopt project).world.Written :=
  every_adopt lasts_written h project

end Engine

end JavaAtlas
