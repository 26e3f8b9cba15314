import JavaAtlas.Proofs.Queue.Waiting
import JavaAtlas.Registry.Basic

/-!
# What a change of the registry leaves alone

Every change is reported, and a file that is not reported keeps its text. Versions only grow while a
file is known: a file that was read at some version is never seen at a lower one, even if it was
removed and opened again in between.
-/

namespace JavaAtlas

set_option autoImplicit false

open Std (TransCmp OrientedCmp ReflCmp)

/-- What is remembered about a file fits its text and version. -/
structure SourceFile.Sound (f : SourceFile) : Prop where
  memo : ∀ print, f.memo = some print → print = .ofText f.text
  recorded : ∀ a, f.lastAnalyzed = some a → a.2 ≤ f.version

theorem SourceFile.Sound.fingerprint_eq {f : SourceFile} (h : f.Sound) :
    f.fingerprint = .ofText f.text := by
  rw [SourceFile.fingerprint]
  cases hm : f.memo with
  | none => rfl
  | some print => exact h.memo print hm

theorem SourceFile.Sound.memoized {f : SourceFile} (h : f.Sound) : f.memoized.Sound where
  memo print hp := by
    rw [← Option.some.inj hp]
    exact h.fingerprint_eq
  recorded := h.recorded

theorem SourceFile.Sound.replaced {f : SourceFile} (h : f.Sound) (text : String) :
    (f.replaced text).Sound where
  memo print hp := by simp [SourceFile.replaced] at hp
  recorded a ha := Nat.le_succ_of_le (h.recorded a ha)

namespace Registry

def Sound (r : Registry) : Prop := ∀ p f, r.files.get? p = some f → f.Sound

/-- What the registry knows about a file, whether or not its fingerprint was asked for. -/
def known? (r : Registry) (p : Path) : Option SourceFile :=
  (r.files.get? p).map fun f => { f with memo := none }

/-- The record of an analysis of version `v` would be neither ahead of the file nor outdated. -/
def Admits (r : Registry) (p : Path) (v : Nat) : Prop :=
  match r.known? p with
  | some f => v ≤ f.version ∧ ∀ a, f.lastAnalyzed = some a → a.2 ≤ v
  | none => ∃ last, r.tombstones.get? p = some last ∧ v ≤ last

theorem known?_congr (r : Registry) {p p' : Path} (h : compare p p' = .eq) :
    r.known? p = r.known? p' := by
  rw [known?, SortedMap.get?_congr _ h, known?]

theorem known?_of_some {r : Registry} {p : Path} {f : SourceFile} (h : r.files.get? p = some f) :
    r.known? p = some { f with memo := none } := by
  rw [known?, h, Option.map_some]

theorem known?_eq_none_iff {r : Registry} {p : Path} :
    r.known? p = none ↔ r.files.get? p = none := by
  rw [known?, Option.map_eq_none_iff]

theorem known?_of_get? {r r' : Registry} {p : Path} (h : r'.files.get? p = r.files.get? p) :
    r'.known? p = r.known? p := by
  rw [known?, h, known?]

theorem admits_congr {r r' : Registry} {p : Path} (hknown : r'.known? p = r.known? p)
    (htombs : r'.tombstones.get? p = r.tombstones.get? p) (v : Nat) :
    r'.Admits p v ↔ r.Admits p v := by
  rw [Admits, Admits, hknown, htombs]

theorem admits_of_known? {r : Registry} {p : Path} {f : SourceFile} (h : r.known? p = some f)
    (v : Nat) : r.Admits p v ↔ v ≤ f.version ∧ ∀ a, f.lastAnalyzed = some a → a.2 ≤ v := by
  rw [Admits, h]

theorem admits_of_unknown {r : Registry} {p : Path} (h : r.known? p = none) (v : Nat) :
    r.Admits p v ↔ ∃ last, r.tombstones.get? p = some last ∧ v ≤ last := by
  rw [Admits, h]

/-- The changes not yet collected by the engine are those of `paths`. -/
def Told (r : Registry) (paths : List Path) : Prop :=
  ∃ events, r.mailboxes[0]? = some (some events) ∧ events.map (·.path) = paths

/-- Nothing but the files of `changed` was touched, and those lawfully. -/
structure Changes (r r' : Registry) (changed : List Path) : Prop where
  sound : r.Sound → r'.Sound
  files : ∀ x, ¬ x.OneOf changed → r'.files.get? x = r.files.get? x
  admits : ∀ x v, r.Admits x v → r'.Admits x v

namespace Changes

variable {r r' r'' : Registry} {changed changed' : List Path}

theorem of_files_eq (hfiles : r'.files = r.files) (htombs : r'.tombstones = r.tombstones) :
    Changes r r' [] where
  sound h := by
    rw [Sound, hfiles]
    exact h
  files x _ := by rw [hfiles]
  admits x v h := by
    refine (admits_congr (r := r) (known?_of_get? ?_) ?_ v).mpr h
    · rw [hfiles]
    · rw [htombs]

theorem trans (h : Changes r r' changed) (h' : Changes r' r'' changed') :
    Changes r r'' (changed ++ changed') where
  sound hs := h'.sound (h.sound hs)
  files x hx := by
    rw [Path.oneOf_append_iff, not_or] at hx
    rw [h'.files x hx.2, h.files x hx.1]
  admits x v hx := h'.admits x v (h.admits x v hx)

end Changes

/-! ## Setting and dropping texts -/

theorem compare_ne_of_not_oneOf {x p : Path} (h : ¬ x.OneOf [p]) : compare x p ≠ .eq := by
  simpa [Path.oneOf_cons_iff, Path.not_oneOf_nil] using h

theorem changes_replace {r : Registry} {p : Path} {f : SourceFile} (hf : r.files.get? p = some f)
    (text : String) : Changes r { r with files := r.files.insert p (f.replaced text) } [p] := by
  constructor
  · intro h x g hg
    rw [SortedMap.get?_insert] at hg
    split at hg
    · rw [← Option.some.inj hg]
      exact (h p f hf).replaced text
    · exact h x g hg
  · intro x hx
    rw [SortedMap.get?_insert, if_neg (compare_ne_of_not_oneOf hx)]
  · intro x v hx
    by_cases hc : compare x p = .eq
    · have hold := known?_of_some ((SortedMap.get?_congr _ hc).trans hf)
      rw [admits_of_known? hold] at hx
      have hnew : ({ r with files := r.files.insert p (f.replaced text) } : Registry).known? x =
          some (f.replaced text) := by
        rw [known?, SortedMap.get?_insert, if_pos hc]
        rfl
      rw [admits_of_known? hnew]
      exact ⟨Nat.le_succ_of_le hx.1, hx.2⟩
    · refine (admits_congr (r := r) (known?_of_get? ?_) ?_ v).mpr hx
      · rw [SortedMap.get?_insert, if_neg hc]
      · rfl

theorem changes_create {r : Registry} {p : Path} {f : SourceFile} (hnone : r.files.get? p = none)
    (hf : f.memo = none) (hnew : f.lastAnalyzed = none)
    (hversion : ∀ last, r.tombstones.get? p = some last → last < f.version) :
    Changes r { r with
      files := r.files.insert p f
      tombstones := r.tombstones.erase p } [p] := by
  constructor
  · intro h x g hg
    rw [SortedMap.get?_insert] at hg
    split at hg
    · rw [← Option.some.inj hg]
      exact ⟨by simp [hf], by simp [hnew]⟩
    · exact h x g hg
  · intro x hx
    rw [SortedMap.get?_insert, if_neg (compare_ne_of_not_oneOf hx)]
  · intro x v hx
    by_cases hc : compare x p = .eq
    · have hold := known?_eq_none_iff.mpr ((SortedMap.get?_congr _ hc).trans hnone)
      rw [admits_of_unknown hold] at hx
      obtain ⟨last, hlast, hv⟩ := hx
      rw [SortedMap.get?_congr _ hc] at hlast
      have hknown : ({ r with files := r.files.insert p f, tombstones := r.tombstones.erase p } :
          Registry).known? x = some { f with memo := none } := by
        rw [known?, SortedMap.get?_insert, if_pos hc]
        rfl
      rw [admits_of_known? hknown]
      refine ⟨Nat.le_of_lt (Nat.lt_of_le_of_lt hv (hversion last hlast)), fun a ha => ?_⟩
      rw [hnew] at ha
      simp at ha
    · refine (admits_congr (r := r) (known?_of_get? ?_) ?_ v).mpr hx
      · rw [SortedMap.get?_insert, if_neg hc]
      · rw [SortedMap.get?_erase, if_neg hc]

theorem changes_setText (r : Registry) (p : Path) (text : String) :
    Changes r (r.setText p text).1 [p] := by
  rw [setText]
  split
  next f hf => exact changes_replace hf text
  next hnone =>
    refine changes_create hnone rfl rfl fun last hlast => ?_
    simp [hlast]

theorem path_setText (r : Registry) (p : Path) (text : String) : (r.setText p text).2.path = p := by
  rw [setText]
  split <;> rfl

theorem mailboxes_setText (r : Registry) (p : Path) (text : String) :
    (r.setText p text).1.mailboxes = r.mailboxes := by
  rw [setText]
  split <;> rfl

theorem Told.emit {r : Registry} {paths : List Path} (h : r.Told paths)
    (events : List ChangeEvent) : (r.emit events).Told (paths ++ events.map (·.path)) := by
  obtain ⟨old, hold, rfl⟩ := h
  refine ⟨old ++ events, ?_, List.map_append⟩
  simp [Registry.emit, List.getElem?_map, hold]

theorem Told.of_mailboxes_eq {r r' : Registry} {paths : List Path} (h : r.Told paths)
    (hm : r'.mailboxes = r.mailboxes) : r'.Told paths := by
  rw [Told, hm]
  exact h

structure Reports (r r' : Registry) (changed : List Path) : Prop extends Changes r r' changed where
  told : ∀ paths, r.Told paths → r'.Told (paths ++ changed)

theorem reports_openFile (r : Registry) (p : Path) (text : String) :
    Reports r (r.openFile p text).1 [p.normalize] := by
  have hset := changes_setText r p.normalize text
  refine ⟨hset.trans (.of_files_eq rfl rfl), fun paths h => ?_⟩
  have := (h.of_mailboxes_eq (mailboxes_setText r p.normalize text)).emit
    [(r.setText p.normalize text).2]
  rwa [List.map_singleton, path_setText] at this

theorem changes_erase {r : Registry} {p : Path} {f : SourceFile} (hf : r.files.get? p = some f) :
    Changes r { r with
      files := r.files.erase p
      tombstones := r.tombstones.insert p f.version } [p] := by
  constructor
  · intro h x g hg
    rw [SortedMap.get?_erase] at hg
    split at hg
    · simp at hg
    · exact h x g hg
  · intro x hx
    rw [SortedMap.get?_erase, if_neg (compare_ne_of_not_oneOf hx)]
  · intro x v hx
    by_cases hc : compare x p = .eq
    · have hold := known?_of_some ((SortedMap.get?_congr _ hc).trans hf)
      rw [admits_of_known? hold] at hx
      refine (admits_of_unknown (known?_eq_none_iff.mpr ?_) v).mpr ⟨f.version, ?_, hx.1⟩
      · rw [SortedMap.get?_erase, if_pos hc]
      · rw [SortedMap.get?_insert, if_pos hc]
    · refine (admits_congr (r := r) (known?_of_get? ?_) ?_ v).mpr hx
      · rw [SortedMap.get?_erase, if_neg hc]
      · rw [SortedMap.get?_insert, if_neg hc]

theorem reports_remove (r : Registry) (p : Path) : ∃ changed, Reports r (r.remove p).1 changed := by
  rw [remove]
  split
  next => exact ⟨[], .of_files_eq rfl rfl, fun paths h => by simpa using h⟩
  next f hf =>
    refine ⟨[p.normalize], (changes_erase hf).trans (.of_files_eq rfl rfl), fun paths h => ?_⟩
    exact Told.emit (h.of_mailboxes_eq rfl) _

theorem mailboxes_loadFile (sources : List (Path × String)) (state : Registry × List ChangeEvent) :
    (sources.foldl loadFile state).1.mailboxes = state.1.mailboxes := by
  induction sources generalizing state with
  | nil => rfl
  | cons source sources ih =>
    rw [List.foldl_cons, ih, loadFile]
    split
    · rfl
    · exact mailboxes_setText _ _ _

theorem changes_loadFile (sources : List (Path × String)) {r₀ : Registry}
    {state : Registry × List ChangeEvent} (h : Changes r₀ state.1 (state.2.map (·.path))) :
    Changes r₀ (sources.foldl loadFile state).1
      ((sources.foldl loadFile state).2.map (·.path)) := by
  induction sources generalizing state with
  | nil => exact h
  | cons source sources ih =>
    rw [List.foldl_cons, loadFile]
    split
    · exact ih h
    · refine ih ?_
      simpa [path_setText] using h.trans (changes_setText state.1 source.1 source.2)

def withRoot (r : Registry) (root : Path) : Registry :=
  if r.roots.contains root then r else { r with roots := r.roots ++ [root] }

theorem withRoot_eq (r : Registry) (root : Path) :
    ∃ roots, r.withRoot root = { r with roots := roots } := by
  rw [withRoot]
  split
  · exact ⟨r.roots, rfl⟩
  · exact ⟨_, rfl⟩

/-- A root that is a directory is put on the list once all its source files are read, and these are
loaded one by one. -/
theorem registerRoot_eq_ok_iff {r r' : Registry} {disk : Disk} {root : Path} {paths : List Path} :
    r.registerRoot disk root = (r', .ok paths) ↔
      disk.isDirectory root.normalize = true ∧
        ∃ sources, readSources root.normalize (disk.below root.normalize) = .ok sources ∧
          let loaded := sources.foldl loadFile (r.withRoot root.normalize, [])
          loaded.1.emit loaded.2 = r' ∧ loaded.2.map (·.path) = paths := by
  rw [registerRoot, withRoot]
  cases disk.isDirectory root.normalize with
  | false => simp
  | true => cases readSources root.normalize (disk.below root.normalize) <;> simp

/-- Everything is read before anything is changed. -/
theorem registerRoot_eq_error_iff {r r' : Registry} {disk : Disk} {root : Path}
    {err : RegistryError} :
    r.registerRoot disk root = (r', .error err) ↔
      r = r' ∧ (disk.isDirectory root.normalize = false ∧ .notADirectory root.normalize = err ∨
        disk.isDirectory root.normalize = true ∧
          readSources root.normalize (disk.below root.normalize) = .error err) := by
  rw [registerRoot]
  cases disk.isDirectory root.normalize with
  | false => simp
  | true => cases readSources root.normalize (disk.below root.normalize) <;> simp

theorem edit_eq_error_iff {r r' : Registry} {path : Path} {text : String} {err : RegistryError} :
    r.edit path text = (r', .error err) ↔
      r = r' ∧ r.contains path.normalize = false ∧ .unknownFile path.normalize = err := by
  rw [edit, contains]
  cases r.files.contains path.normalize <;> simp

theorem edit_eq_ok_iff {r r' : Registry} {path : Path} {text : String} {version : Nat} :
    r.edit path text = (r', .ok version) ↔
      r.contains path.normalize = true ∧ r.openFile path text = (r', version) := by
  rw [edit, contains]
  cases r.files.contains path.normalize <;> simp [Prod.ext_iff]

/-! ## What is read below a root -/

/-- A walk from `root` breaks off at an entry. -/
inductive Breaks (root : Path) : Path × DiskNode → RegistryError → Prop
  | sealed (place : Path) (cause : String) :
    Breaks root (place, .sealed cause) (.walk root place cause)
  | locked (path : Path) (cause : String) (hsource : path.extension? = some sourceExtension) :
    Breaks root (path, .locked cause) (.io path cause)

theorem Breaks.unique {root : Path} {e : Path × DiskNode} {err err' : RegistryError}
    (h : Breaks root e err) (h' : Breaks root e err') : err = err' := by
  cases h <;> cases h' <;> rfl

/-- A walk breaks off at the entry before it, or fails exactly as the rest of it does. -/
theorem readSources_cons (root : Path) (entry : Path × DiskNode)
    (rest : List (Path × DiskNode)) :
    (∃ err, Breaks root entry err ∧ readSources root (entry :: rest) = .error err) ∨
      (∀ err, ¬ Breaks root entry err) ∧
        ∀ err, readSources root (entry :: rest) = .error err ↔ readSources root rest = .error err := by
  obtain ⟨path, node⟩ := entry
  cases node with
  | directory | archive => exact .inr ⟨fun err h => (by cases h), fun _ => by rw [readSources]⟩
  | sealed cause => exact .inl ⟨_, .sealed path cause, rfl⟩
  | locked cause =>
    by_cases hsource : path.extension? = some sourceExtension
    · exact .inl ⟨_, .locked path cause hsource, by rw [readSources, if_pos hsource]⟩
    · refine .inr ⟨fun err h => ?_, fun _ => by rw [readSources, if_neg hsource]⟩
      cases h
      contradiction
  | file bytes =>
    refine .inr ⟨fun err h => (by cases h), fun err => ?_⟩
    rw [readSources]
    split
    · cases readSources root rest <;> simp [bind, Except.bind, pure, Except.pure]
    · rfl

/-- A walk fails at the first entry at which it breaks off, whatever comes after it. -/
theorem readSources_eq_error_iff {root : Path} {entries : List (Path × DiskNode)}
    {err : RegistryError} :
    readSources root entries = .error err ↔
      ∃ before e after, entries = before ++ e :: after ∧ Breaks root e err ∧
        ∀ x ∈ before, ∀ other, ¬ Breaks root x other := by
  induction entries with
  | nil => simp [readSources]
  | cons entry rest ih =>
    obtain hbreak | ⟨hpass, hcons⟩ := readSources_cons root entry rest
    · obtain ⟨other, hother, hcons⟩ := hbreak
      rw [hcons, Except.error.injEq]
      constructor
      · rintro rfl
        exact ⟨[], entry, rest, rfl, hother, by simp⟩
      · rintro ⟨before, e, after, heq, he, hfirst⟩
        cases before with
        | nil =>
          obtain ⟨rfl, rfl⟩ := List.cons.inj heq
          exact hother.unique he
        | cons x before =>
          obtain ⟨rfl, rfl⟩ := List.cons.inj heq
          exact absurd hother (hfirst _ List.mem_cons_self other)
    · rw [hcons, ih]
      constructor
      · rintro ⟨before, e, after, rfl, he, hfirst⟩
        exact ⟨entry :: before, e, after, rfl, he, List.forall_mem_cons.mpr ⟨hpass, hfirst⟩⟩
      · rintro ⟨before, e, after, heq, he, hfirst⟩
        cases before with
        | nil =>
          obtain ⟨rfl, rfl⟩ := List.cons.inj heq
          exact absurd he (hpass err)
        | cons x before =>
          obtain ⟨rfl, rfl⟩ := List.cons.inj heq
          exact ⟨before, e, after, rfl, he, (List.forall_mem_cons.mp hfirst).2⟩

theorem reports_registerRoot {r r' : Registry} {disk : Disk} {root : Path} {paths : List Path}
    (h : r.registerRoot disk root = (r', .ok paths)) : Reports r r' paths := by
  obtain ⟨-, sources, -, rfl, rfl⟩ := registerRoot_eq_ok_iff.mp h
  obtain ⟨roots, hroots⟩ := r.withRoot_eq root.normalize
  have hstart : Changes r (r.withRoot root.normalize) [] :=
    .of_files_eq (by rw [hroots]) (by rw [hroots])
  have hemit (r : Registry) (events : List ChangeEvent) : Changes r (r.emit events) [] :=
    .of_files_eq rfl rfl
  refine ⟨?_, fun paths hp => (hp.of_mailboxes_eq ?_).emit _⟩
  · simpa using (changes_loadFile sources hstart).trans (hemit _ _)
  · rw [mailboxes_loadFile, hroots]

/-! ## Reading and recording -/

structure Memoizes (r r' : Registry) : Prop where
  sound : r.Sound → r'.Sound
  known : ∀ x, r'.known? x = r.known? x
  tombstones : r'.tombstones = r.tombstones
  mailboxes : r'.mailboxes = r.mailboxes

theorem Memoizes.refl (r : Registry) : Memoizes r r := ⟨id, fun _ => rfl, rfl, rfl⟩

theorem Memoizes.trans {r r' r'' : Registry} (h : Memoizes r r') (h' : Memoizes r' r'') :
    Memoizes r r'' where
  sound hs := h'.sound (h.sound hs)
  known x := (h'.known x).trans (h.known x)
  tombstones := h'.tombstones.trans h.tombstones
  mailboxes := h'.mailboxes.trans h.mailboxes

theorem Memoizes.admits_iff {r r' : Registry} (h : Memoizes r r') (p : Path) (v : Nat) :
    r'.Admits p v ↔ r.Admits p v :=
  admits_congr (h.known p) (by rw [h.tombstones]) v

theorem get?_files_file (r : Registry) (p x : Path) :
    (r.file p).1.files.get? x =
      if compare x p = .eq then (r.files.get? x).map SourceFile.memoized else r.files.get? x :=
  SortedMap.get?_adjust _ _ _ _

theorem memoizes_file (r : Registry) (p : Path) : Memoizes r (r.file p).1 where
  sound h x g hg := by
    rw [get?_files_file] at hg
    split at hg
    · obtain ⟨f, hf, rfl⟩ := Option.map_eq_some_iff.mp hg
      exact (h x f hf).memoized
    · exact h x g hg
  known x := by
    rw [known?, get?_files_file, known?]
    cases r.files.get? x with
    | none => simp
    | some f => by_cases hc : compare x p = .eq <;> simp [hc, SourceFile.memoized]
  tombstones := rfl
  mailboxes := rfl

theorem admits_of_get? {r : Registry} (h : r.Sound) {p : Path} {f : SourceFile}
    (hf : r.files.get? p = some f) : r.Admits p f.version :=
  (admits_of_known? (known?_of_some hf) f.version).mpr ⟨Nat.le_refl _, (h p f hf).recorded⟩

theorem get?_files_setLastAnalyzed (r : Registry) (p x : Path) (print : Fingerprint) (v : Nat) :
    (r.setLastAnalyzed p print v).files.get? x =
      if compare x p = .eq then (r.files.get? x).map fun f =>
        if f.lastAnalyzed.all fun a => a.2 ≤ v then { f with lastAnalyzed := some (print, v) } else f
      else r.files.get? x :=
  SortedMap.get?_adjust _ _ _ _

theorem get?_setLastAnalyzed_of_admits {r : Registry} {p : Path} {v : Nat} (h : r.Admits p v)
    (print : Fingerprint) :
    (r.setLastAnalyzed p print v).files.get? p =
      (r.files.get? p).map fun f => { f with lastAnalyzed := some (print, v) } := by
  rw [get?_files_setLastAnalyzed, if_pos ReflCmp.compare_self]
  cases hf : r.files.get? p with
  | none => rfl
  | some f =>
    rw [admits_of_known? (known?_of_some hf)] at h
    have hall : (f.lastAnalyzed.all fun a => decide (a.2 ≤ v)) = true := by
      cases ha : f.lastAnalyzed with
      | none => rfl
      | some a => simpa using h.2 a ha
    simp [hall]

theorem Sound.setLastAnalyzed {r : Registry} (h : r.Sound) {p : Path} {v : Nat}
    (hv : r.Admits p v) (print : Fingerprint) : (r.setLastAnalyzed p print v).Sound := by
  intro x g hg
  by_cases hc : compare x p = .eq
  · rw [SortedMap.get?_congr _ hc, get?_setLastAnalyzed_of_admits hv] at hg
    obtain ⟨f, hf, rfl⟩ := Option.map_eq_some_iff.mp hg
    rw [admits_of_known? (known?_of_some hf)] at hv
    refine ⟨(h p f hf).memo, fun a ha => ?_⟩
    rw [← Option.some.inj ha]
    exact hv.1
  · rw [get?_files_setLastAnalyzed, if_neg hc] at hg
    exact h x g hg

theorem known?_setLastAnalyzed_of_ne (r : Registry) {p x : Path} (hc : compare x p ≠ .eq)
    (print : Fingerprint) (v : Nat) : (r.setLastAnalyzed p print v).known? x = r.known? x := by
  apply known?_of_get?
  rw [get?_files_setLastAnalyzed, if_neg hc]

@[simp] theorem files_releaseTombstone (r : Registry) (p : Path) :
    (r.releaseTombstone p).files = r.files := by
  rw [releaseTombstone]
  split <;> rfl

@[simp] theorem mailboxes_releaseTombstone (r : Registry) (p : Path) :
    (r.releaseTombstone p).mailboxes = r.mailboxes := by
  rw [releaseTombstone]
  split <;> rfl

theorem tombstones_releaseTombstone_of_ne (r : Registry) {p x : Path} (hc : compare x p ≠ .eq) :
    (r.releaseTombstone p).tombstones.get? x = r.tombstones.get? x := by
  rw [releaseTombstone]
  split
  · rfl
  · rw [SortedMap.get?_erase, if_neg hc]

end Registry

end JavaAtlas
