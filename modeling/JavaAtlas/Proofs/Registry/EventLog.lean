import JavaAtlas.Proofs.Registry.Changes
import JavaAtlas.Registry.Snapshot

/-!
# The registry and its events

Whoever has seen all events knows the files and their versions. The registry is followed call by
call: what the events of a call do to the known versions, whether each of them was possible, how far
the versions of a file count on, and what is kept about removed files and fingerprints.
-/

namespace JavaAtlas

set_option autoImplicit false

open Std (TransCmp OrientedCmp ReflCmp)

namespace Registry

/-! ## Reading events -/

/-- The versions of all files after a change, for one who knew those before it. -/
def replay (known : SortedMap Path Nat) (e : ChangeEvent) : SortedMap Path Nat :=
  match e.kind with
  | .created | .modified => known.insert e.path e.version
  | .deleted => known.erase e.path

/-- The change is possible where the files have the versions `known`. -/
def Fits (known : SortedMap Path Nat) (e : ChangeEvent) : Prop :=
  match e.kind with
  | .created => known.contains e.path = false
  | .modified => known.contains e.path = true
  | .deleted => known.get? e.path = some e.version

/-- Every event fits what the events before it leave. -/
def Coherent (known : SortedMap Path Nat) : List ChangeEvent → Prop
  | [] => True
  | e :: events => Fits known e ∧ Coherent (replay known e) events

theorem coherent_append_iff (known : SortedMap Path Nat) (events events' : List ChangeEvent) :
    Coherent known (events ++ events') ↔
      Coherent known events ∧ Coherent (events.foldl replay known) events' := by
  induction events generalizing known with
  | nil => simp [Coherent]
  | cons e events ih => rw [List.cons_append, Coherent, ih, Coherent, List.foldl_cons, and_assoc]

def versionsOf (p : Path) (events : List ChangeEvent) : List Nat :=
  (events.filter fun e => e.kind != .deleted && compare p e.path == .eq).map (·.version)

theorem versionsOf_append (p : Path) (events events' : List ChangeEvent) :
    versionsOf p (events ++ events') = versionsOf p events ++ versionsOf p events' := by
  rw [versionsOf, List.filter_append, List.map_append, versionsOf, versionsOf]

/-! ## What a call keeps -/

def versions (r : Registry) : SortedMap Path Nat := r.files.map fun _ f => f.version

/-- The version from which a file counts on, zero for one that starts anew. -/
def lastVersion (r : Registry) (p : Path) : Nat :=
  ((r.files.get? p).map (·.version)).getD ((r.tombstones.get? p).getD 0)

/-- No file is both there and remembered as removed. -/
def Apart (r : Registry) : Prop :=
  ∀ p, ¬ (r.files.contains p = true ∧ r.tombstones.contains p = true)

/-- Fingerprints that are remembered are those of the texts. -/
def Remembers (r : Registry) : Prop :=
  ∀ p f, r.files.get? p = some f → ∀ print, f.memo = some print → print = .ofText f.text

/-- The events gave the file the versions that follow its last one, without a gap. -/
structure Counts (r r' : Registry) (events : List ChangeEvent) (p : Path) : Prop where
  consecutive : versionsOf p events =
    List.range' (r.lastVersion p + 1) (versionsOf p events).length
  last : r'.lastVersion p = r.lastVersion p + (versionsOf p events).length

theorem Counts.of_silent {r r' : Registry} {events : List ChangeEvent} {p : Path}
    (h : versionsOf p events = []) (hlast : r'.lastVersion p = r.lastVersion p) :
    Counts r r' events p where
  consecutive := by rw [h]; rfl
  last := by rw [h, hlast]; rfl

theorem Counts.of_single {r r' : Registry} {events : List ChangeEvent} {p : Path}
    (h : versionsOf p events = [r.lastVersion p + 1])
    (hlast : r'.lastVersion p = r.lastVersion p + 1) : Counts r r' events p where
  consecutive := by rw [h]; rfl
  last := by rw [h, hlast]; rfl

theorem Counts.trans {r r' r'' : Registry} {events events' : List ChangeEvent} {p : Path}
    (h : Counts r r' events p) (h' : Counts r' r'' events' p) :
    Counts r r'' (events ++ events') p where
  consecutive := by
    rw [versionsOf_append, List.length_append, ← List.range'_append_1, ← h.consecutive,
      Nat.add_right_comm, ← h.last, ← h'.consecutive]
  last := by rw [h'.last, h.last, versionsOf_append, List.length_append, Nat.add_assoc]

/-- What holds of two registries and the events between them: the events lead from the known versions
of the one to those of the other, and files count on unless their last version was `released`. -/
structure Follows (released : Path → Prop) (r r' : Registry) (events : List ChangeEvent) : Prop where
  replays : events.foldl replay r.versions = r'.versions
  coherent : Coherent r.versions events
  counts : ∀ p, ¬ released p → Counts r r' events p
  apart : r.Apart → r'.Apart
  remembers : r.Remembers → r'.Remembers

namespace Follows

variable {released released' : Path → Prop} {r r' r'' : Registry} {events events' : List ChangeEvent}

theorem mono (h : Follows released r r' events) (hreleased : ∀ p, released p → released' p) :
    Follows released' r r' events :=
  { h with counts := fun p hp => h.counts p fun hr => hp (hreleased p hr) }

theorem trans (h : Follows released r r' events) (h' : Follows released' r' r'' events') :
    Follows (fun p => released p ∨ released' p) r r'' (events ++ events') where
  replays := by rw [List.foldl_append, h.replays, h'.replays]
  coherent := (coherent_append_iff _ _ _).mpr ⟨h.coherent, h.replays ▸ h'.coherent⟩
  counts p hp :=
    (h.counts p fun hr => hp (.inl hr)).trans (h'.counts p fun hr => hp (.inr hr))
  apart := h'.apart ∘ h.apart
  remembers := h'.remembers ∘ h.remembers

end Follows

theorem get?_versions (r : Registry) (p : Path) :
    r.versions.get? p = (r.files.get? p).map (·.version) :=
  SortedMap.get?_map _ _ _

theorem contains_versions (r : Registry) (p : Path) : r.versions.contains p = r.files.contains p :=
  SortedMap.contains_map _ _ _

theorem lastVersion_congr {r r' : Registry} {p : Path} (hfiles : r'.files.get? p = r.files.get? p)
    (htombs : r'.tombstones.get? p = r.tombstones.get? p) : r'.lastVersion p = r.lastVersion p := by
  rw [lastVersion, hfiles, htombs, lastVersion]

theorem lastVersion_eq_of_compare (r : Registry) {p x : Path} (h : compare x p = .eq) :
    r.lastVersion x = r.lastVersion p := by
  rw [lastVersion, SortedMap.get?_congr _ h, SortedMap.get?_congr _ h, lastVersion]

theorem follows_of_versions_eq {released : Path → Prop} {r r' : Registry}
    (hversions : r'.versions = r.versions) (htombs : r'.tombstones = r.tombstones)
    (hremembers : r.Remembers → r'.Remembers) : Follows released r r' [] where
  replays := hversions.symm
  coherent := trivial
  counts p _ := by
    refine .of_silent rfl ?_
    rw [lastVersion, ← get?_versions, hversions, htombs, get?_versions, lastVersion]
  apart h p := by
    rw [← contains_versions, hversions, htombs, contains_versions]
    exact h p
  remembers := hremembers

/-! ## Setting and dropping texts -/

theorem follows_replace {r : Registry} {p : Path} {f : SourceFile} (hf : r.files.get? p = some f)
    (text : String) :
    Follows (fun _ => False) r { r with files := r.files.insert p (f.replaced text) }
      [⟨p, .modified, f.version + 1⟩] where
  replays := (SortedMap.map_insert SourceFile.version r.files p (f.replaced text)).symm
  coherent := by
    refine ⟨?_, trivial⟩
    rw [Fits, contains_versions, SortedMap.contains_iff_exists_get?]
    exact ⟨f, hf⟩
  counts x _ := by
    by_cases hc : compare x p = .eq
    · have hlast : r.lastVersion x = f.version := by
        rw [lastVersion_eq_of_compare r hc, lastVersion, hf]
        rfl
      refine .of_single ?_ ?_
      · simp [versionsOf, hc, hlast]
      · rw [hlast, lastVersion, SortedMap.get?_insert, if_pos hc]
        rfl
    · refine .of_silent (by simp [versionsOf, hc]) (lastVersion_congr ?_ rfl)
      rw [SortedMap.get?_insert, if_neg hc]
  apart h x := by
    rw [SortedMap.contains_insert, Bool.or_eq_true]
    rintro ⟨hx | hx, htomb⟩
    · refine h p ⟨SortedMap.contains_iff_exists_get?.mpr ⟨f, hf⟩, ?_⟩
      rwa [← SortedMap.contains_congr _ (beq_iff_eq.mp hx)]
    · exact h x ⟨hx, htomb⟩
  remembers h x g hg := by
    rw [SortedMap.get?_insert] at hg
    split at hg
    · rw [← Option.some.inj hg]
      simp [SourceFile.replaced]
    · exact h x g hg

theorem follows_create {r : Registry} {p : Path} {f : SourceFile} (hnone : r.files.get? p = none)
    (hmemo : f.memo = none) (hversion : f.version = r.lastVersion p + 1) :
    Follows (fun _ => False) r { r with
      files := r.files.insert p f
      tombstones := r.tombstones.erase p } [⟨p, .created, f.version⟩] where
  replays := (SortedMap.map_insert SourceFile.version r.files p f).symm
  coherent := by
    refine ⟨?_, trivial⟩
    rw [Fits, contains_versions, SortedMap.contains_eq_isSome_get?, hnone]
    rfl
  counts x _ := by
    by_cases hc : compare x p = .eq
    · rw [← lastVersion_eq_of_compare r hc] at hversion
      refine .of_single ?_ ?_
      · simp [versionsOf, hc, hversion]
      · rw [← hversion, lastVersion, SortedMap.get?_insert, if_pos hc]
        rfl
    · refine .of_silent (by simp [versionsOf, hc]) (lastVersion_congr ?_ ?_)
      · rw [SortedMap.get?_insert, if_neg hc]
      · rw [SortedMap.get?_erase, if_neg hc]
  apart h x := by
    rw [SortedMap.contains_insert, SortedMap.contains_erase]
    have hx := h x
    by_cases hc : compare x p = .eq <;> simp_all
  remembers h x g hg := by
    rw [SortedMap.get?_insert] at hg
    split at hg
    · rw [← Option.some.inj hg, hmemo]
      simp
    · exact h x g hg

theorem follows_setText (r : Registry) (p : Path) (text : String) :
    Follows (fun _ => False) r (r.setText p text).1 [(r.setText p text).2] := by
  rw [setText]
  split
  next f hf => exact follows_replace hf text
  next hnone =>
    refine follows_create hnone rfl ?_
    rw [lastVersion, hnone]
    cases r.tombstones.get? p <;> rfl

theorem follows_erase {r : Registry} {p : Path} {f : SourceFile} (hf : r.files.get? p = some f) :
    Follows (fun _ => False) r { r with
      files := r.files.erase p
      tombstones := r.tombstones.insert p f.version } [⟨p, .deleted, f.version⟩] where
  replays := (SortedMap.map_erase _ _ _).symm
  coherent := by
    refine ⟨?_, trivial⟩
    rw [Fits, get?_versions, hf]
    rfl
  counts x _ := by
    refine .of_silent (by simp [versionsOf]) ?_
    by_cases hc : compare x p = .eq
    · rw [lastVersion_eq_of_compare r hc, lastVersion, SortedMap.get?_erase, if_pos hc,
        SortedMap.get?_insert, if_pos hc, lastVersion, hf]
      rfl
    · refine lastVersion_congr ?_ ?_
      · rw [SortedMap.get?_erase, if_neg hc]
      · rw [SortedMap.get?_insert, if_neg hc]
  apart h x := by
    rw [SortedMap.contains_insert, SortedMap.contains_erase]
    have hx := h x
    by_cases hc : compare x p = .eq <;> simp_all
  remembers h x g hg := by
    rw [SortedMap.get?_erase] at hg
    split at hg
    · simp at hg
    · exact h x g hg

/-! ## The calls -/

inductive Call
  | openFile (path : Path) (text : String)
  | edit (path : Path) (text : String)
  | remove (path : Path)
  | registerRoot (disk : Disk) (root : Path)
  | setLastAnalyzed (path : Path) (print : Fingerprint) (version : Nat)
  | releaseTombstone (path : Path)
  | snapshot
  | file (path : Path)

namespace Call

def attempt (r : Registry) : Call → Registry × Except RegistryError Unit
  | openFile path text => ((r.openFile path text).1, .ok ())
  | edit path text => ((r.edit path text).1, (r.edit path text).2.map fun _ => ())
  | remove path => ((r.remove path).1, .ok ())
  | registerRoot disk root =>
    ((r.registerRoot disk root).1, (r.registerRoot disk root).2.map fun _ => ())
  | setLastAnalyzed path print version => (r.setLastAnalyzed path print version, .ok ())
  | releaseTombstone path => (r.releaseTombstone path, .ok ())
  | snapshot => (r.snapshot.1, .ok ())
  | file path => ((r.file path).1, .ok ())

def run (r : Registry) (c : Call) : Registry := (c.attempt r).1

/-- The call cannot be carried out: the file to edit is not there, the root is no directory, or the
walk below it comes upon something that cannot be listed or read. -/
def Refused (r : Registry) (c : Call) (err : RegistryError) : Prop :=
  match c with
  | edit path _ => r.contains path.normalize = false ∧ err = .unknownFile path.normalize
  | registerRoot disk root =>
    disk.isDirectory root.normalize = false ∧ err = .notADirectory root.normalize ∨
      disk.isDirectory root.normalize = true ∧ ∃ before e after,
        disk.below root.normalize = before ++ e :: after ∧ Breaks root.normalize e err ∧
          ∀ x ∈ before, ∀ other, ¬ Breaks root.normalize x other
  | _ => False

def Releases (r : Registry) (c : Call) (p : Path) : Prop :=
  ∃ q, c = .releaseTombstone q ∧ compare p q = .eq ∧ r.tombstones.contains p = true

end Call

def runAll (r : Registry) (calls : List Call) : Registry := calls.foldl Call.run r

/-- One of the calls forgets the last version of the file. -/
def ReleasedIn : Registry → List Call → Path → Prop
  | _, [], _ => False
  | r, c :: calls, p => c.Releases r p ∨ ReleasedIn (c.run r) calls p

theorem follows_loadFile {sources : List (Path × String)} {r₀ : Registry}
    {state : Registry × List ChangeEvent} (h : Follows (fun _ => False) r₀ state.1 state.2) :
    Follows (fun _ => False) r₀ (sources.foldl loadFile state).1 (sources.foldl loadFile state).2 := by
  induction sources generalizing state with
  | nil => exact h
  | cons source sources ih =>
    rw [List.foldl_cons, loadFile]
    split
    · exact ih h
    · exact ih ((h.trans (follows_setText state.1 source.1 source.2)).mono fun _ => by simp)

theorem follows_releaseTombstone (r : Registry) (p : Path) :
    Follows (Call.Releases r (.releaseTombstone p)) r (r.releaseTombstone p) [] where
  replays := by rw [versions, versions, files_releaseTombstone]; rfl
  coherent := trivial
  counts x hx := by
    refine .of_silent rfl (lastVersion_congr (by rw [files_releaseTombstone]) ?_)
    by_cases hc : compare x p = .eq
    · have hnone : r.tombstones.get? x = none := by
        rw [SortedMap.get?_eq_none_iff, ← Bool.not_eq_true]
        exact fun h => hx ⟨p, rfl, hc, h⟩
      rw [releaseTombstone]
      split
      · rfl
      · rw [SortedMap.get?_erase, if_pos hc, hnone]
    · exact tombstones_releaseTombstone_of_ne r hc
  apart h x := by
    have hx := h x
    rw [files_releaseTombstone, releaseTombstone]
    split
    · exact hx
    · rw [SortedMap.contains_erase]
      simp_all
  remembers h := by
    rw [Remembers, files_releaseTombstone]
    exact h

theorem Remembers.fingerprint_eq {r : Registry} (h : r.Remembers) {p : Path} {f : SourceFile}
    (hf : r.files.get? p = some f) : f.fingerprint = .ofText f.text := by
  rw [SourceFile.fingerprint]
  cases hm : f.memo with
  | none => rfl
  | some print => exact h p f hf print hm

theorem Remembers.memoized {r : Registry} (h : r.Remembers) {p : Path} {f : SourceFile}
    (hf : r.files.get? p = some f) {print : Fingerprint} (hmemo : f.memoized.memo = some print) :
    print = .ofText f.text := by
  rw [← Option.some.inj hmemo]
  exact h.fingerprint_eq hf

theorem follows_setLastAnalyzed {released : Path → Prop} (r : Registry) (p : Path)
    (print : Fingerprint) (v : Nat) : Follows released r (r.setLastAnalyzed p print v) [] := by
  refine follows_of_versions_eq ?_ rfl fun h x g hg => ?_
  · refine SortedMap.map_adjust (fun f => ?_) _ _
    split <;> rfl
  · rw [get?_files_setLastAnalyzed] at hg
    split at hg
    · obtain ⟨f, hf, rfl⟩ := Option.map_eq_some_iff.mp hg
      split <;> exact h x f hf
    · exact h x g hg

theorem follows_file {released : Path → Prop} (r : Registry) (p : Path) :
    Follows released r (r.file p).1 [] := by
  have hversion (f : SourceFile) : f.memoized.version = f.version := rfl
  refine follows_of_versions_eq (SortedMap.map_adjust hversion r.files p) rfl fun h x g hg => ?_
  rw [get?_files_file] at hg
  split at hg
  · obtain ⟨f, hf, rfl⟩ := Option.map_eq_some_iff.mp hg
    exact fun print => h.memoized hf
  · exact h x g hg

theorem follows_snapshot {released : Path → Prop} (r : Registry) :
    Follows released r r.snapshot.1 [] := by
  refine follows_of_versions_eq ?_ rfl fun h x g hg => ?_
  · apply SortedMap.ext
    simp [versions, snapshot, SortedMap.map, SourceFile.memoized]
  · have hget : r.snapshot.1.files.get? x = (r.files.get? x).map SourceFile.memoized :=
      SortedMap.get?_map _ _ _
    rw [hget] at hg
    obtain ⟨f, hf, rfl⟩ := Option.map_eq_some_iff.mp hg
    exact fun print => h.memoized hf

/-- The registry follows events of which every subscriber is told. -/
structure Logs (released : Path → Prop) (r r' : Registry) (events : List ChangeEvent) : Prop
    extends Follows released r r' events where
  told : r'.mailboxes = (r.emit events).mailboxes

theorem emit_nil (r : Registry) : r.emit [] = r := by simp [emit]

theorem emit_append (r : Registry) (events events' : List ChangeEvent) :
    r.emit (events ++ events') = (r.emit events).emit events' := by
  simp [emit, Function.comp_def]

theorem Follows.logs_silent {released : Path → Prop} {r r' : Registry}
    (h : Follows released r r' []) (hboxes : r'.mailboxes = r.mailboxes) : Logs released r r' [] :=
  { h with told := by rw [hboxes, emit_nil] }

theorem Follows.logs_emit {released : Path → Prop} {r r' : Registry} {events : List ChangeEvent}
    (h : Follows (fun _ => False) r r' events) (hboxes : r'.mailboxes = r.mailboxes) :
    Logs released r (r'.emit events) events where
  replays := h.replays
  coherent := h.coherent
  counts p _ := ⟨(h.counts p id).consecutive, (h.counts p id).last⟩
  apart := h.apart
  remembers := h.remembers
  told := by rw [emit, emit, hboxes]

variable {released : Path → Prop}

theorem logs_openFile (r : Registry) (p : Path) (text : String) :
    ∃ events, Logs released r (r.openFile p text).1 events :=
  ⟨_, (follows_setText r p.normalize text).logs_emit (mailboxes_setText r p.normalize text)⟩

theorem logs_remove (r : Registry) (p : Path) :
    ∃ events, Logs released r (r.remove p).1 events := by
  rw [remove]
  split
  next => exact ⟨[], (follows_of_versions_eq rfl rfl id).logs_silent rfl⟩
  next f hf => exact ⟨_, (follows_erase hf).logs_emit rfl⟩

theorem logs_refl (r : Registry) : Logs released r r [] :=
  (follows_of_versions_eq rfl rfl id).logs_silent rfl

theorem logs_registerRoot {r r' : Registry} {disk : Disk} {root : Path} {paths : List Path}
    (h : r.registerRoot disk root = (r', .ok paths)) : ∃ events, Logs released r r' events := by
  obtain ⟨-, sources, -, rfl, -⟩ := registerRoot_eq_ok_iff.mp h
  obtain ⟨roots, hroots⟩ := r.withRoot_eq root.normalize
  have hstart : Follows (fun _ => False) r (r.withRoot root.normalize) [] := by
    rw [hroots]
    exact follows_of_versions_eq rfl rfl id
  refine ⟨_, (follows_loadFile hstart).logs_emit ?_⟩
  rw [mailboxes_loadFile, hroots]

/-- What one call does: its events reach every subscriber, and the registry follows them. -/
theorem logs_run (r : Registry) (c : Call) :
    ∃ events, Logs (c.Releases r) r (c.run r) events := by
  cases c with
  | openFile path text => exact logs_openFile r path text
  | edit path text =>
    rw [Call.run, Call.attempt]
    obtain ⟨r', outcome, hedit⟩ : ∃ r' outcome, r.edit path text = (r', outcome) := ⟨_, _, rfl⟩
    rw [hedit]
    cases outcome with
    | ok version =>
      obtain rfl : (r.openFile path text).1 = r' := congrArg Prod.fst (edit_eq_ok_iff.mp hedit).2
      exact logs_openFile r path text
    | error err =>
      obtain ⟨rfl, -⟩ := edit_eq_error_iff.mp hedit
      exact ⟨[], logs_refl r⟩
  | remove path => exact logs_remove r path
  | registerRoot disk root =>
    rw [Call.run, Call.attempt]
    obtain ⟨r', outcome, hroot⟩ : ∃ r' outcome, r.registerRoot disk root = (r', outcome) :=
      ⟨_, _, rfl⟩
    rw [hroot]
    cases outcome with
    | ok paths => exact logs_registerRoot hroot
    | error err =>
      obtain ⟨rfl, -⟩ := registerRoot_eq_error_iff.mp hroot
      exact ⟨[], logs_refl r⟩
  | setLastAnalyzed path print version =>
    exact ⟨[], (follows_setLastAnalyzed r path print version).logs_silent rfl⟩
  | releaseTombstone path =>
    exact ⟨[], (follows_releaseTombstone r path).logs_silent (mailboxes_releaseTombstone r path)⟩
  | snapshot => exact ⟨[], (follows_snapshot r).logs_silent rfl⟩
  | file path => exact ⟨[], (follows_file r path).logs_silent rfl⟩

theorem logs_runAll (r : Registry) (calls : List Call) :
    ∃ events, Logs (ReleasedIn r calls) r (runAll r calls) events := by
  induction calls generalizing r with
  | nil => exact ⟨[], (follows_of_versions_eq rfl rfl id).logs_silent rfl⟩
  | cons c calls ih =>
    obtain ⟨events, h⟩ := logs_run r c
    obtain ⟨events', h'⟩ := ih (c.run r)
    refine ⟨events ++ events', h.trans h'.toFollows, ?_⟩
    rw [emit_append, runAll, List.foldl_cons]
    exact h'.told.trans (congrArg (List.map (Option.map (· ++ events'))) h.told)

/-! ## The log of a registry -/

def start (subscribers : Nat) : Registry := { mailboxes := List.replicate subscribers (some []) }

theorem apart_start (subscribers : Nat) : (start subscribers).Apart := by
  rintro p ⟨hfile, -⟩
  simp [start, SortedMap.contains_eq_isSome_get?, EmptyCollection.emptyCollection] at hfile

theorem remembers_start (subscribers : Nat) : (start subscribers).Remembers := by
  intro p f hf
  simp [start, EmptyCollection.emptyCollection] at hf

theorem mailbox_emit {r : Registry} {i : Nat} {log : List ChangeEvent}
    (h : r.mailboxes[i]? = some (some log)) (events : List ChangeEvent) :
    (r.emit events).mailboxes[i]? = some (some (log ++ events)) := by
  rw [emit, List.getElem?_map, h]
  rfl

/-- A call fails exactly if it is refused, and then leaves the registry as it was. -/
theorem attempt_eq_error_iff {r r' : Registry} {c : Call} {err : RegistryError} :
    c.attempt r = (r', .error err) ↔ r = r' ∧ c.Refused r err := by
  have hmap {α : Type} (result : Registry × Except RegistryError α) :
      (result.1, result.2.map fun _ => ()) = (r', .error err) ↔ result = (r', .error err) := by
    obtain ⟨left, outcome⟩ := result
    cases outcome <;> simp [Except.map]
  cases c with
  | edit path text =>
    rw [Call.attempt, hmap, edit_eq_error_iff, Call.Refused]
    exact and_congr_right' (and_congr_right' eq_comm)
  | registerRoot disk root =>
    rw [Call.attempt, hmap, registerRoot_eq_error_iff, Call.Refused, readSources_eq_error_iff]
    exact and_congr_right' (or_congr (and_congr_right' eq_comm) Iff.rfl)
  | openFile | remove | setLastAnalyzed | releaseTombstone | snapshot | file =>
    simp [Call.attempt, Call.Refused]

theorem Remembers.snapshot_eq {r : Registry} (h : r.Remembers) :
    r.snapshot.2 = r.files.map fun _ f => ⟨.ofText f.text, f.version⟩ := by
  apply SortedMap.ext
  refine List.map_congr_left fun e he => ?_
  simp only [h.fingerprint_eq (SortedMap.get?_of_mem he)]

theorem Remembers.file_eq {r : Registry} (h : r.Remembers) (p : Path) :
    (r.file p).2.map (fun f => (f.text, f.fingerprint)) =
      (r.files.get? p).map fun f => (f.text, .ofText f.text) := by
  rw [file, Option.map_map]
  refine Option.map_congr fun f hf => ?_
  exact Prod.ext rfl (h.fingerprint_eq hf)

/-- Every subscriber that is there from the start is told one log. Replaying it gives the files with
their versions, each of its events fits what came before, and as long as the last version of a file
is not released the file gets one version after the other. No file is there and remembered as removed,
a failing call changes nothing, and the fingerprints read are those of the texts. -/
theorem registry_follows_log (subscribers : Nat) (calls : List Call) :
    let r := runAll (start subscribers) calls
    ∃ log : List ChangeEvent,
      (∀ i : Fin subscribers, r.mailboxes[i.val]? = some (some log)) ∧
      log.foldl replay ∅ = r.versions ∧
      Coherent ∅ log ∧
      (∀ more p, ¬ ReleasedIn r more p → ∃ told,
        (∀ i : Fin subscribers, (runAll r more).mailboxes[i.val]? = some (some (log ++ told))) ∧
          versionsOf p told = List.range' (r.lastVersion p + 1) (versionsOf p told).length) ∧
      r.Apart ∧
      (∀ (c : Call) (left : Registry) (err : RegistryError),
        c.attempt r = (left, .error err) ↔ r = left ∧ c.Refused r err) ∧
      r.snapshot.2 = r.files.map (fun _ f => ⟨.ofText f.text, f.version⟩) ∧
      ∀ p, (r.file p).2.map (fun f => (f.text, f.fingerprint)) =
        (r.files.get? p).map fun f => (f.text, .ofText f.text) := by
  intro r
  obtain ⟨log, hlog⟩ := logs_runAll (start subscribers) calls
  have hbox (i : Fin subscribers) : r.mailboxes[i.val]? = some (some log) := by
    have hempty : (start subscribers).mailboxes[i.val]? = some (some []) := by simp [start]
    rw [hlog.told]
    exact mailbox_emit hempty log
  have hremembers := hlog.remembers (remembers_start subscribers)
  refine ⟨log, hbox, hlog.replays, hlog.coherent, fun more p hp => ?_,
    hlog.apart (apart_start subscribers),
    fun c left err => attempt_eq_error_iff, hremembers.snapshot_eq, hremembers.file_eq⟩
  obtain ⟨told, htold⟩ := logs_runAll r more
  refine ⟨told, fun i => ?_, (htold.counts p hp).consecutive⟩
  rw [htold.told]
  exact mailbox_emit (hbox i) told

/-- A directory with a source file and, after it, a directory that cannot be listed. -/
def halfSealed : Disk :=
  ((({} : Disk).makeDirectory ⟨"/s"⟩).write ⟨"/s/A.java"⟩ []).put ⟨"/s/x"⟩ (.sealed "denied")

/-- A file is opened, removed and opened anew, so that it counts on. A root cannot be read between,
although the file before the sealed directory could. -/
def reopened : List Call :=
  [.openFile ⟨"/a"⟩ "1", .registerRoot halfSealed ⟨"/s"⟩, .remove ⟨"/a"⟩, .openFile ⟨"/a"⟩ "2"]

theorem registry_follows_log_reopened :
    ¬ ReleasedIn (start 1) reopened ⟨"/a"⟩ ∧
      (Call.registerRoot halfSealed ⟨"/s"⟩).attempt (runAll (start 1) (reopened.take 1)) =
        (runAll (start 1) (reopened.take 1), .error (.walk ⟨"/s"⟩ ⟨"/s/x"⟩ "denied")) ∧
      ∃ told, (runAll (start 1) reopened).mailboxes[0]? = some (some told) ∧
        told = [⟨⟨"/a"⟩, .created, 1⟩, ⟨⟨"/a"⟩, .deleted, 1⟩, ⟨⟨"/a"⟩, .created, 2⟩] ∧
        versionsOf ⟨"/a"⟩ told = [1, 2] := by
  have hkept : ¬ ReleasedIn (start 1) reopened ⟨"/a"⟩ := by
    simp [reopened, ReleasedIn, Call.Releases]
  have hroot : Path.normalize ⟨"/s"⟩ = ⟨"/s"⟩ := by decide +kernel
  have hbelow : halfSealed.below ⟨"/s"⟩ = [(⟨"/s"⟩, .directory), (⟨"/s/A.java"⟩, .file [])] ++
      (⟨"/s/x"⟩, .sealed "denied") :: [] := by decide +kernel
  have hrefused : (Call.registerRoot halfSealed ⟨"/s"⟩).Refused
      (runAll (start 1) (reopened.take 1)) (.walk ⟨"/s"⟩ ⟨"/s/x"⟩ "denied") := by
    rw [Call.Refused, hroot]
    refine .inr ⟨by decide +kernel, _, _, _, hbelow, .sealed _ _, ?_⟩
    rintro x hx other (_ | _) <;> simp at hx
  obtain ⟨-, -, -, -, -, -, hfailing, -⟩ := registry_follows_log 1 (reopened.take 1)
  refine ⟨hkept, (hfailing _ _ _).mpr ⟨rfl, hrefused⟩, ?_⟩
  obtain ⟨log, hbox, -, -, hcounts, -⟩ := registry_follows_log 1 []
  obtain rfl : log = [] := by simpa [runAll, start] using (hbox 0).symm
  obtain ⟨told, htold, hversions⟩ := hcounts reopened ⟨"/a"⟩ hkept
  have hevents : (runAll (start 1) reopened).mailboxes[0]? = some (some
      [⟨⟨"/a"⟩, .created, 1⟩, ⟨⟨"/a"⟩, .deleted, 1⟩, ⟨⟨"/a"⟩, .created, 2⟩]) := by decide +kernel
  obtain rfl := Option.some.inj (Option.some.inj ((htold 0).symm.trans hevents))
  exact ⟨_, hevents, rfl, hversions⟩

end Registry

end JavaAtlas
