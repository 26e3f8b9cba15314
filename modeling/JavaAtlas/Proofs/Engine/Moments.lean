import JavaAtlas.Proofs.Engine.Batch
import JavaAtlas.Proofs.Index.Rebuild

/-!
# What a moment of an analysis keeps

An analysis holds what it has read of its file. That stays lawful whatever happens meanwhile: the
version it read is not ahead of the file, and nobody else records an analysis of the same file. If
the file is still as it was read, each moment leaves it so, and the last ones leave index and
registry in agreement. Nothing is done to any other file.
-/

namespace JavaAtlas

set_option autoImplicit false

open Std (TransCmp OrientedCmp ReflCmp)

namespace Engine

/-- The index and the registry agree about a file; `removed` says that there is none. -/
def Landed (e : Engine) (p : Path) (removed : Bool) : Prop :=
  match e.registry.known? p with
  | some f => removed = false ∧ e.index.fingerprint? p = some (.ofText f.text) ∧
      f.lastAnalyzed.map (·.1) = some (.ofText f.text)
  | none => removed = true ∧ e.index.file? p = none

/-- A file that is done with: its text is indexed and it is fresh, or there is no trace of it. -/
def Settled (e : Engine) (p : Path) : Prop :=
  ∃ removed, e.Landed p removed ∧
    e.queue.phases.get? p = if removed then none else some .fresh

end Engine

namespace Stage

/-- What an analysis holds of its file is lawful, whether or not the file has changed since. -/
def Sound (e : Engine) (p : Path) : Stage → Prop
  | .viewed before => before.fingerprint? p = e.index.fingerprint? p
  | .found before file => before.fingerprint? p = e.index.fingerprint? p ∧
      file.fingerprint = .ofText file.text ∧ e.registry.Admits p file.version
  | .bound _ file _ _ => file.fingerprint = .ofText file.text ∧ e.registry.Admits p file.version
  | .published _ file _ _ => file.fingerprint = .ofText file.text ∧ e.registry.Admits p file.version
  | _ => True

/-- What an analysis has seen of its file, and done about it, is still right. -/
def Current (e : Engine) (p : Path) : Stage → Prop
  | .viewed _ => True
  | .found _ file => e.registry.known? p = some { file with memo := none }
  | .bound _ file _ _ => (e.registry.known? p).map (·.text) = some file.text
  | .published _ file _ _ => (e.registry.known? p).map (·.text) = some file.text ∧
      e.index.fingerprint? p = some file.fingerprint
  | .recorded _ _ _ _ => e.Landed p false
  | .missing _ => e.registry.known? p = none
  | .dropped _ _ => e.Landed p true
  | .evicted _ _ => e.Landed p true
  | .judged a => e.Landed p a.removed
  | .released a _ => e.Landed p a.removed
  | .done a => e.Landed p a.removed

end Stage

theorem Stage.Sound.congr {e e' : Engine} {p : Path} {stage : Stage} (h : stage.Sound e p)
    (hfile : e'.index.file? p = e.index.file? p)
    (hadmits : ∀ v, e.registry.Admits p v → e'.registry.Admits p v) : stage.Sound e' p := by
  have hprint : e'.index.fingerprint? p = e.index.fingerprint? p := by
    rw [Snapshot.fingerprint?, hfile, Snapshot.fingerprint?]
  cases stage <;> simp_all [Stage.Sound]

/-- The engines agree about one file. -/
structure SameAt (e e' : Engine) (p : Path) : Prop where
  known : e'.registry.known? p = e.registry.known? p
  file : e'.index.file? p = e.index.file? p

namespace SameAt

variable {e e' : Engine} {p : Path}

theorem fingerprint (h : SameAt e e' p) : e'.index.fingerprint? p = e.index.fingerprint? p := by
  rw [Snapshot.fingerprint?, h.file, Snapshot.fingerprint?]

theorem landed_iff (h : SameAt e e' p) (removed : Bool) :
    e'.Landed p removed ↔ e.Landed p removed := by
  rw [Engine.Landed, Engine.Landed, h.known, h.fingerprint, h.file]

theorem settled (h : SameAt e e' p) (hs : e.Settled p)
    (hphase : e'.queue.phases.get? p = e.queue.phases.get? p) : e'.Settled p := by
  obtain ⟨removed, hlanded, hold⟩ := hs
  exact ⟨removed, (h.landed_iff removed).mpr hlanded, hphase.trans hold⟩

theorem current (h : SameAt e e' p) {stage : Stage} (hs : stage.Current e p) :
    stage.Current e' p := by
  cases stage <;> simp_all [Stage.Current, h.landed_iff, h.fingerprint, h.known]

end SameAt

/-! ## Spellings -/

theorem Snapshot.file?_congr (s : Snapshot) {p p' : Path} (h : compare p p' = .eq) :
    s.file? p = s.file? p' :=
  SortedMap.get?_congr _ h

theorem Snapshot.fingerprint?_congr (s : Snapshot) {p p' : Path} (h : compare p p' = .eq) :
    s.fingerprint? p = s.fingerprint? p' := by
  rw [Snapshot.fingerprint?, s.file?_congr h, Snapshot.fingerprint?]

theorem Engine.landed_congr (e : Engine) {p p' : Path} (h : compare p p' = .eq) (removed : Bool) :
    e.Landed p removed ↔ e.Landed p' removed := by
  rw [Engine.Landed, Engine.Landed, e.registry.known?_congr h, e.index.fingerprint?_congr h,
    e.index.file?_congr h]

theorem Engine.settled_congr (e : Engine) {p p' : Path} (h : compare p p' = .eq) :
    e.Settled p ↔ e.Settled p' := by
  simp only [Engine.Settled, e.landed_congr h, SortedMap.get?_congr _ h]

theorem Stage.current_congr (e : Engine) {p p' : Path} (h : compare p p' = .eq) (stage : Stage) :
    stage.Current e p ↔ stage.Current e p' := by
  cases stage <;> simp only [Stage.Current, e.landed_congr h, e.registry.known?_congr h,
    e.index.fingerprint?_congr h]

/-! ## One moment of an analysis -/

namespace Engine

open Snapshot (file?)

theorem file?_upsert_of_ne (s : Snapshot) {path x : Path} (hne : compare x path ≠ .eq)
    (print : Fingerprint) (symbols : FileSymbols) :
    (s.upsert path print symbols).1.file? x = s.file? x :=
  s.get?_files_upsert_of_ne hne print symbols

theorem fingerprint?_upsert (s : Snapshot) (path : Path) (print : Fingerprint)
    (symbols : FileSymbols) : (s.upsert path print symbols).1.fingerprint? path = some print := by
  rw [Snapshot.fingerprint?, Snapshot.file?, Snapshot.files_upsert]
  split
  next hholds =>
    rw [Snapshot.holds, Option.any_eq_true] at hholds
    obtain ⟨entry, hentry, heq⟩ := hholds
    rw [Snapshot.file?] at hentry
    rw [hentry, Option.map_some]
    rw [Bool.and_eq_true, beq_iff_eq] at heq
    rw [heq.1]
  next => rw [SortedMap.get?_insert_self, Option.map_some]

theorem file?_remove (s : Snapshot) (path x : Path) :
    (s.remove path).1.file? x = if compare x path = .eq then none else s.file? x := by
  rw [Snapshot.file?, Snapshot.files_remove, SortedMap.get?_erase, Snapshot.file?]

/-- An analysis touches only its own file, and of the queue only promises. -/
structure Confined (e e' : Engine) (path : Path) : Prop where
  same : ∀ x, compare x path ≠ .eq → SameAt e e' x
  admits : ∀ x, compare x path ≠ .eq → ∀ v, e.registry.Admits x v → e'.registry.Admits x v
  mailboxes : e'.registry.mailboxes = e.registry.mailboxes
  phases : e'.queue.phases = e.queue.phases
  queue : e'.queue.queue = e.queue.queue
  queued : e'.queue.queued = e.queue.queued
  rerun : e'.queue.rerun = e.queue.rerun
  running : e'.queue.running = e.queue.running
  inFlight : e'.inFlight = e.inFlight

theorem Confined.of_queue_eq {e e' : Engine} {path : Path}
    (hsame : ∀ x, compare x path ≠ .eq → SameAt e e' x)
    (htombs : ∀ x, compare x path ≠ .eq →
      e'.registry.tombstones.get? x = e.registry.tombstones.get? x)
    (hmail : e'.registry.mailboxes = e.registry.mailboxes) (hqueue : e'.queue = e.queue)
    (hin : e'.inFlight = e.inFlight) : Confined e e' path := by
  refine ⟨hsame, fun x hx v => ?_, hmail, ?_, ?_, ?_, ?_, ?_, hin⟩
  · exact (Registry.admits_congr (hsame x hx).known (htombs x hx) v).mpr
  all_goals rw [hqueue]

theorem Reads.sameAt {e e' : Engine} (h : Reads e e') (x : Path) : SameAt e e' x :=
  ⟨h.registry.known x, by rw [h.index]⟩

theorem Reads.confined {e e' : Engine} (h : Reads e e') (path : Path) : Confined e e' path :=
  .of_queue_eq (fun x _ => h.sameAt x) (fun x _ => by rw [h.registry.tombstones])
    h.registry.mailboxes h.queue h.inFlight

theorem confined_advance (e : Engine) (path : Path) (trigger : Trigger) (stage : Stage) :
    Confined e (e.advance path trigger stage).1 path := by
  cases stage with
  | viewed before =>
    rcases hfile : e.registry.file path with ⟨registry, _ | file⟩
    · rw [advance, hfile]
      exact (Reads.refl e).confined path
    · have hreads : Reads e { e with registry := (e.registry.file path).1 } :=
        ⟨rfl, Registry.memoizes_file _ path, rfl, rfl, rfl, rfl, rfl⟩
      rw [hfile] at hreads
      rw [advance, hfile]
      exact hreads.confined path
  | found before file =>
    rw [advance]
    split
    · exact (Reads.refl e).confined path
    · exact (agrees_symbolsAgainst e before path trigger file).reads.confined path
  | bound before file symbols fromCache =>
    refine .of_queue_eq (fun x hx => ⟨rfl, ?_⟩) (fun _ _ => rfl) rfl rfl rfl
    exact file?_upsert_of_ne e.index hx _ _
  | published before file outcome fromCache =>
    refine .of_queue_eq (fun x hx => ⟨?_, rfl⟩) (fun _ _ => rfl) rfl rfl rfl
    exact e.registry.known?_setLastAnalyzed_of_ne hx _ _
  | recorded before file outcome fromCache => exact (Reads.refl e).confined path
  | missing before =>
    refine .of_queue_eq (fun x hx => ⟨rfl, ?_⟩) (fun _ _ => rfl) rfl rfl rfl
    exact (file?_remove e.index path x).trans (if_neg hx)
  | dropped before removed =>
    have hagrees := (agrees_removeRecord e path).reads
    have hreads : Reads e { e.removeRecord path with parses := (e.parses.evict path).1 } :=
      ⟨hagrees.config, hagrees.registry, hagrees.index, hagrees.classpath, hagrees.store,
        hagrees.queue, hagrees.inFlight⟩
    exact hreads.confined path
  | evicted before removed =>
    refine .of_queue_eq (fun x hx => ⟨?_, rfl⟩) (fun x hx => ?_) ?_ rfl rfl
    · exact Registry.known?_of_get? (by rw [advance, Registry.files_releaseTombstone])
    · exact e.registry.tombstones_releaseTombstone_of_ne hx
    · exact e.registry.mailboxes_releaseTombstone path
  | judged a =>
    exact ⟨fun x _ => ⟨rfl, rfl⟩, fun x _ v h => h, rfl, rfl, rfl, rfl, rfl, rfl, rfl⟩
  | released a promised => exact (Reads.refl e).confined path
  | done a => exact (Reads.refl e).confined path

theorem sound_registry_advance {e : Engine} {path : Path} {stage : Stage} (trigger : Trigger)
    (h : e.registry.Sound) (hstage : stage.Sound e path) :
    (e.advance path trigger stage).1.registry.Sound := by
  cases stage with
  | viewed before =>
    have hmemo := (Registry.memoizes_file e.registry path).sound h
    rcases hfile : e.registry.file path with ⟨registry, _ | file⟩
    · rw [advance, hfile]
      exact h
    · rw [hfile] at hmemo
      rw [advance, hfile]
      exact hmemo
  | found before file =>
    rw [advance]
    split
    · exact h
    · exact (agrees_symbolsAgainst e before path trigger file).reads.registry.sound h
  | bound before file symbols fromCache => exact h
  | published before file outcome fromCache => exact h.setLastAnalyzed hstage.2 _
  | recorded before file outcome fromCache => exact h
  | missing before => exact h
  | dropped before removed => exact (agrees_removeRecord e path).reads.registry.sound h
  | evicted before removed =>
    intro x f hf
    exact h x f (by rwa [advance, Registry.files_releaseTombstone] at hf)
  | judged a => exact h
  | released a promised => exact h
  | done a => exact h

theorem stage_sound_advance {e : Engine} {path : Path} {stage : Stage} (trigger : Trigger)
    (h : e.registry.Sound) (hstage : stage.Sound e path) :
    (e.advance path trigger stage).2.Sound (e.advance path trigger stage).1 path := by
  cases stage with
  | viewed before =>
    rcases hfile : e.registry.file path with ⟨registry, _ | file⟩
    · rw [advance, hfile]
      exact trivial
    · have hfound : (e.registry.file path).2 = some file := by rw [hfile]
      obtain ⟨f, hf, rfl⟩ := Option.map_eq_some_iff.mp hfound
      have hregistry : (e.registry.file path).1 = registry := by rw [hfile]
      rw [advance, hfile]
      refine ⟨hstage, (h path f hf).memoized.fingerprint_eq, ?_⟩
      have hadmits : e.registry.Admits path f.version := Registry.admits_of_get? h hf
      rw [← hregistry]
      exact ((Registry.memoizes_file e.registry path).admits_iff path _).mpr hadmits
  | found before file =>
    rw [advance]
    split
    · exact trivial
    · have hreads := (agrees_symbolsAgainst e before path trigger file).reads
      exact ⟨hstage.2.1, (hreads.registry.admits_iff path _).mpr hstage.2.2⟩
  | bound before file symbols fromCache => exact hstage
  | published before file outcome fromCache => exact trivial
  | recorded before file outcome fromCache => exact trivial
  | missing before => exact trivial
  | dropped before removed => exact trivial
  | evicted before removed => exact trivial
  | judged a => exact trivial
  | released a promised => exact trivial
  | done a => exact trivial

theorem landed_of_known? {e : Engine} {path : Path} {f : SourceFile}
    (h : e.registry.known? path = some f) (removed : Bool) :
    e.Landed path removed ↔ removed = false ∧
      e.index.fingerprint? path = some (.ofText f.text) ∧
      f.lastAnalyzed.map (·.1) = some (.ofText f.text) := by
  rw [Landed, h]

theorem landed_of_unknown {e : Engine} {path : Path} (h : e.registry.known? path = none)
    (removed : Bool) : e.Landed path removed ↔ removed = true ∧ e.index.file? path = none := by
  rw [Landed, h]

/-- An analysis is skipped only when there is nothing to do. -/
theorem landed_of_skips {e : Engine} {path : Path} {before : Snapshot} {file : SourceFile}
    {trigger : Trigger} (hskip : e.skips before path trigger file = true)
    (hstage : (Stage.found before file).Sound e path)
    (hcurrent : (Stage.found before file).Current e path) : e.Landed path false := by
  rw [skips, isUpToDate] at hskip
  simp only [Bool.and_eq_true, beq_iff_eq] at hskip
  obtain ⟨-, -, hanalyzed, hindexed⟩ := hskip
  obtain ⟨hbefore, hprint, -⟩ := hstage
  rw [landed_of_known? hcurrent]
  refine ⟨rfl, ?_, ?_⟩
  · rw [← hbefore, ← hprint, hindexed]
  · rw [SourceFile.isAnalyzed, Option.any_eq_true] at hanalyzed
    obtain ⟨a, ha, heq⟩ := hanalyzed
    rw [beq_iff_eq] at heq
    rw [ha, Option.map_some, heq, hprint]

/-- What was right about the file stays right at the next moment. -/
theorem stage_current_advance {e : Engine} {path : Path} {stage : Stage} (trigger : Trigger)
    (hstage : stage.Sound e path) (hcurrent : stage.Current e path) :
    (e.advance path trigger stage).2.Current (e.advance path trigger stage).1 path := by
  cases stage with
  | viewed before =>
    rcases hfile : e.registry.file path with ⟨registry, _ | file⟩
    · have hnone : (e.registry.file path).2 = none := by rw [hfile]
      rw [advance, hfile]
      exact Registry.known?_eq_none_iff.mpr (Option.map_eq_none_iff.mp hnone)
    · have hfound : (e.registry.file path).2 = some file := by rw [hfile]
      obtain ⟨f, hf, rfl⟩ := Option.map_eq_some_iff.mp hfound
      have hregistry : (e.registry.file path).1 = registry := by rw [hfile]
      rw [advance, hfile]
      have hknown : e.registry.known? path = some { f with memo := none } :=
        Registry.known?_of_some hf
      rw [← (Registry.memoizes_file e.registry path).known, hregistry] at hknown
      exact hknown
  | found before file =>
    rw [advance]
    split
    next hskip => exact landed_of_skips hskip hstage hcurrent
    next =>
      have hsame := (agrees_symbolsAgainst e before path trigger file).reads.sameAt path
      show ((e.symbolsAgainst before path trigger file).1.registry.known? path).map (·.text) = _
      rw [hsame.known, hcurrent]
      rfl
  | bound before file symbols fromCache => exact ⟨hcurrent, fingerprint?_upsert _ _ _ _⟩
  | published before file outcome fromCache =>
    obtain ⟨hknown, hindexed⟩ := hcurrent
    obtain ⟨f, hf, htext⟩ := Option.map_eq_some_iff.mp hknown
    obtain ⟨g, hg, rfl⟩ := Option.map_eq_some_iff.mp hf
    have hrecord : (e.registry.setLastAnalyzed path file.fingerprint file.version).known? path =
        some { g with memo := none, lastAnalyzed := some (file.fingerprint, file.version) } := by
      rw [Registry.known?, Registry.get?_setLastAnalyzed_of_admits hstage.2, hg]
      rfl
    have hprint : file.fingerprint = .ofText g.text := hstage.1.trans (by rw [← htext])
    refine (landed_of_known? (e := { e with
      registry := e.registry.setLastAnalyzed path file.fingerprint file.version }) hrecord
      false).mpr ⟨rfl, ?_, ?_⟩
    · exact hindexed.trans (by rw [hprint])
    · rw [Option.map_some, hprint]
  | recorded before file outcome fromCache => exact hcurrent
  | missing before =>
    refine (landed_of_unknown (e := { e with index := (e.index.remove path).1 }) hcurrent
      true).mpr ⟨rfl, ?_⟩
    exact (file?_remove e.index path path).trans (if_pos ReflCmp.compare_self)
  | dropped before removed =>
    have hsame := (agrees_removeRecord e path).reads.sameAt path
    exact (hsame.landed_iff true).mpr hcurrent
  | evicted before removed =>
    have hsame : SameAt e { e with registry := e.registry.releaseTombstone path } path :=
      ⟨Registry.known?_of_get? (by rw [Registry.files_releaseTombstone]), rfl⟩
    exact (hsame.landed_iff true).mpr hcurrent
  | judged a => exact hcurrent
  | released a promised => exact hcurrent
  | done a => exact hcurrent

end Engine

end JavaAtlas
