import JavaAtlas.Proofs.Store.Lookup
import JavaAtlas.Proofs.Store.Marker
import Mathlib.Data.List.Induction
import Mathlib.Logic.Function.Basic

/-!
# The store as a map

A directory that only the store itself has written to answers every sequence of calls as a map from
path keys to what was last stored for them. The names of record files are digests of the keys, so
this is said of paths whose keys have different digests.
-/

namespace JavaAtlas

set_option autoImplicit false

/-! ## Calls and runs -/

inductive StoreCall (α : Type)
  | reopen (schema : UInt32)
  | store (time : UInt64) (path : Path) (print : Fingerprint) (value : α)
  | load (path : Path)
  | loadMatching (path : Path) (wanted : Fingerprint)
  | remove (path : Path)
  | clear

inductive StoreAnswer (α : Type)
  | done (ok : Bool)
  | found (lookup : Lookup α)

/-- A directory, and the schema it was last opened for. -/
structure StoreHandle where
  directory : StoreDirectory
  schema : UInt32

/-- What was last stored for each key. -/
structure StoreMap (α : Type) where
  schema : UInt32
  entry : String → Option (Fingerprint × α) := fun _ => none

variable {α : Type}

def StoreHandle.call (payload : Codec α) (h : StoreHandle) :
    StoreCall α → StoreHandle × StoreAnswer α
  | .reopen schema =>
    match h.directory.openFor schema with
    | some (d, _) => (⟨d, schema⟩, .done true)
    | none => (h, .done false)
  | .store time path print value =>
    match h.directory.store h.schema payload time path print value with
    | some d => ({ h with directory := d }, .done true)
    | none => (h, .done false)
  | .load path =>
    let (d, lookup) := h.directory.load h.schema payload path
    ({ h with directory := d }, .found lookup)
  | .loadMatching path wanted =>
    let (d, lookup) := h.directory.loadMatching h.schema payload path wanted
    ({ h with directory := d }, .found lookup)
  | .remove path =>
    let (d, removed) := h.directory.remove path
    ({ h with directory := d }, .done removed)
  | .clear =>
    match h.directory.clear with
    | some d => ({ h with directory := d }, .done true)
    | none => (h, .done false)

namespace Lookup

def ofEntry : Option (Fingerprint × α) → Lookup α
  | some (print, value) => .hit print value
  | none => .miss .absent

def ofEntryFor (wanted : Fingerprint) : Option (Fingerprint × α) → Lookup α
  | some (print, value) => if print = wanted then .hit print value else .miss .fingerprintMismatch
  | none => .miss .absent

end Lookup

def StoreMap.call (m : StoreMap α) : StoreCall α → StoreMap α × StoreAnswer α
  | .reopen schema => (if schema = m.schema then m else { schema := schema }, .done true)
  | .store _ path print value =>
    ({ m with entry := Function.update m.entry (pathKey path) (some (print, value)) }, .done true)
  | .load path => (m, .found (.ofEntry (m.entry (pathKey path))))
  | .loadMatching path wanted => (m, .found (.ofEntryFor wanted (m.entry (pathKey path))))
  | .remove path => ({ m with entry := Function.update m.entry (pathKey path) none }, .done true)
  | .clear => ({ m with entry := fun _ => none }, .done true)

/-- The state after some calls, and the answers to them. -/
def runCalls {σ : Type} (call : σ → StoreCall α → σ × StoreAnswer α) :
    σ → List (StoreCall α) → σ × List (StoreAnswer α)
  | s, [] => (s, [])
  | s, c :: rest =>
    let (s, answer) := call s c
    let (s, answers) := runCalls call s rest
    (s, answer :: answers)

theorem runCalls_append {σ : Type} (call : σ → StoreCall α → σ × StoreAnswer α) (s : σ)
    (calls more : List (StoreCall α)) :
    runCalls call s (calls ++ more) =
      ((runCalls call (runCalls call s calls).1 more).1,
        (runCalls call s calls).2 ++ (runCalls call (runCalls call s calls).1 more).2) := by
  induction calls generalizing s with
  | nil => rfl
  | cons c calls ih =>
    have hrest := ih (call s c).1
    simp only [List.cons_append, runCalls, hrest]

/-- A relation that every call keeps, with equal answers, is kept by runs. -/
theorem runCalls_simulates {σ τ : Type} {call : σ → StoreCall α → σ × StoreAnswer α}
    {call' : τ → StoreCall α → τ × StoreAnswer α} {R : σ → τ → Prop} {P : StoreCall α → Prop}
    (hstep : ∀ s t c, R s t → P c → (call s c).2 = (call' t c).2 ∧ R (call s c).1 (call' t c).1)
    {s : σ} {t : τ} (h : R s t) {calls : List (StoreCall α)} (hcalls : ∀ c ∈ calls, P c) :
    (runCalls call s calls).2 = (runCalls call' t calls).2 ∧
      R (runCalls call s calls).1 (runCalls call' t calls).1 := by
  induction calls generalizing s t with
  | nil => exact ⟨rfl, h⟩
  | cons c calls ih =>
    obtain ⟨hanswer, hnext⟩ := hstep s t c h (hcalls c List.mem_cons_self)
    obtain ⟨hanswers, hlast⟩ := ih hnext fun c' hc' => hcalls c' (List.mem_cons_of_mem c hc')
    refine ⟨?_, hlast⟩
    simp only [runCalls, hanswer, hanswers]

/-! ## The directory against the map -/

/-- Schema and time take the same space in every record. -/
theorem StoredRecord.length_write (payload : Codec α) (r : StoredRecord α) :
    ((StoredRecord.codec payload).write r).length =
      12 + (Codec.text.write r.key).length + (Codec.fingerprint.write r.fingerprint).length +
        (payload.write r.payload).length := by
  simp only [StoredRecord.codec, Codec.via, Codec.pair, Codec.u32, Codec.u64, List.length_append,
    Codec.length_writeWord]
  omega

/-- Paths of different keys have record files of different names. -/
def DistinctRecords (used : Path → Prop) : Prop :=
  ∀ p q, used p → used q → Fingerprint.ofText (pathKey p) = Fingerprint.ofText (pathKey q) →
    pathKey p = pathKey q

theorem recordName_eq_iff (p q : Path) :
    recordName p = recordName q ↔
      Fingerprint.ofText (pathKey p) = Fingerprint.ofText (pathKey q) := by
  rw [recordName, recordName, String.append_left_inj]
  exact ⟨congrArg Fingerprint.mk, congrArg Fingerprint.hex⟩

theorem DistinctRecords.recordName_ne {used : Path → Prop} (h : DistinctRecords used) {p q : Path}
    (hp : used p) (hq : used q) (hne : pathKey p ≠ pathKey q) : recordName p ≠ recordName q :=
  fun heq => hne (h p q hp hq ((recordName_eq_iff p q).mp heq))

/-- The paths of a call are among those in use, and what it stores fits a record file. -/
def StoreCall.Admissible (payload : Codec α) (used : Path → Prop) : StoreCall α → Prop
  | .store time path print value => used path ∧ ∀ schema,
    ((StoredRecord.codec payload).write ⟨schema, time, pathKey path, print, value⟩).length ≤
      recordLimit
  | .load path | .loadMatching path _ | .remove path => used path
  | .reopen _ | .clear => True

/-- The record file of a path is what storing an entry leaves, or there is none. -/
def StoreDirectory.Stands (d : StoreDirectory) (schema : UInt32) (payload : Codec α) (path : Path) :
    Option (Fingerprint × α) → Prop
  | none => d.node? (recordName path) = none
  | some (print, value) => ∃ time,
    ((StoredRecord.codec payload).write ⟨schema, time, pathKey path, print, value⟩).length ≤
      recordLimit ∧
    d.node? (recordName path) =
      some (.file ((StoredRecord.codec payload).write ⟨schema, time, pathKey path, print, value⟩))

/-- A directory that holds just the entries of a map, under the marker of their schema. -/
structure Represents (payload : Codec α) (used : Path → Prop) (h : StoreHandle) (m : StoreMap α) :
    Prop where
  schema : h.schema = m.schema
  free : h.directory.blocked = false
  marker : h.directory.marker = some (Text.encode (toString m.schema.toNat))
  stands : ∀ path, used path →
    h.directory.Stands m.schema payload path (m.entry (pathKey path))

namespace StoreDirectory

variable {d d' : StoreDirectory} {schema : UInt32} {payload : Codec α} {path : Path}
  {entry : Option (Fingerprint × α)}

theorem Stands.congr (h : d.Stands schema payload path entry)
    (hnode : d'.node? (recordName path) = d.node? (recordName path)) :
    d'.Stands schema payload path entry := by
  cases entry with
  | none => exact hnode.trans h
  | some entry =>
    obtain ⟨time, hfits, hfile⟩ := h
    exact ⟨time, hfits, hnode.trans hfile⟩

theorem Stands.not_directory (h : d.Stands schema payload path entry) :
    d.node? (recordName path) ≠ some .directory := by
  intro hnode
  cases entry with
  | none =>
    rw [show d.node? (recordName path) = none from h] at hnode
    simp at hnode
  | some entry =>
    obtain ⟨time, -, hfile⟩ := h
    rw [hfile] at hnode
    simp at hnode

theorem store_of_not_directory (hfree : d.blocked = false)
    (hplace : d.node? (recordName path) ≠ some .directory) {time : UInt64} {print : Fingerprint}
    {value : α} :
    d.store schema payload time path print value =
      some (d.setNode (recordName path)
        (.file ((StoredRecord.codec payload).write ⟨schema, time, pathKey path, print, value⟩))) := by
  rw [store, if_neg (by rw [hfree]; decide)]
  split
  next hnode => exact absurd hnode hplace
  next => rfl

theorem remove_of_not_directory (hfree : d.blocked = false)
    (hplace : d.node? (recordName path) ≠ some .directory) :
    d.remove path = (d.dropNode (recordName path), true) := by
  rw [remove, if_neg (by rw [hfree]; decide)]
  split
  next hnode => exact absurd hnode hplace
  next => rfl

theorem Stands.holds {print : Fingerprint} {value : α} (hpayload : payload.ReadsBack)
    (h : d.Stands schema payload path (some (print, value))) :
    ∃ r, d.Holds schema payload path r ∧ r.fingerprint = print ∧ r.payload = value := by
  obtain ⟨time, hfits, hnode⟩ := h
  have hread := hpayload.record.read_write (Nat.lt_of_le_of_lt hfits (by decide))
  exact ⟨_, ⟨⟨_, hnode, hfits, hread⟩, rfl, rfl⟩, rfl, rfl⟩

theorem load_of_stands (hpayload : payload.ReadsBack) (h : d.Stands schema payload path entry) :
    d.load schema payload path = (d, .ofEntry entry) := by
  cases entry with
  | none =>
    rw [load, show d.node? (recordName path) = none from h]
    rfl
  | some entry =>
    obtain ⟨r, hr, hprint, hvalue⟩ := h.holds hpayload
    rw [load_of_holds hr, hprint, hvalue]
    rfl

theorem loadMatching_of_stands (hpayload : payload.ReadsBack)
    (h : d.Stands schema payload path entry) (wanted : Fingerprint) :
    d.loadMatching schema payload path wanted = (d, .ofEntryFor wanted entry) := by
  rw [loadMatching, load_of_stands hpayload h]
  cases entry with
  | none => rfl
  | some entry =>
    simp only [Lookup.ofEntry, Lookup.ofEntryFor]
    split <;> rfl

end StoreDirectory

namespace Represents

variable {payload : Codec α} {used : Path → Prop} {h : StoreHandle} {m : StoreMap α}

open StoreDirectory

/-- One record file was changed, and its entry with it. -/
theorem update (hr : Represents payload used h m) (hused : DistinctRecords used) {path : Path}
    (hpath : used path) {d : StoreDirectory} {entry : Option (Fingerprint × α)}
    (hblocked : d.blocked = h.directory.blocked) (hmarker : d.marker = h.directory.marker)
    (hstands : d.Stands m.schema payload path entry)
    (hothers : ∀ name, name ≠ recordName path → d.node? name = h.directory.node? name) :
    Represents payload used ⟨d, h.schema⟩
      { m with entry := Function.update m.entry (pathKey path) entry } := by
  refine ⟨hr.schema, hblocked.trans hr.free, hmarker.trans hr.marker, fun other hother => ?_⟩
  by_cases hkey : pathKey other = pathKey path
  · rw [hkey]
    simp only [Function.update_self]
    have hname := recordName_congr hkey
    cases entry with
    | none => exact (congrArg d.node? hname).trans hstands
    | some entry =>
      obtain ⟨time, hfits, hnode⟩ := hstands
      rw [← hkey] at hfits hnode
      exact ⟨time, hfits, (congrArg d.node? hname).trans hnode⟩
  · simp only [Function.update_of_ne hkey]
    exact (hr.stands other hother).congr (hothers _ (hused.recordName_ne hother hpath hkey))

theorem call (hr : Represents payload used h m) (hpayload : payload.ReadsBack)
    (hused : DistinctRecords used) {c : StoreCall α} (hc : c.Admissible payload used) :
    (h.call payload c).2 = (m.call c).2 ∧
      Represents payload used (h.call payload c).1 (m.call c).1 := by
  cases c with
  | reopen schema =>
    obtain ⟨⟨d, status⟩, hopen, hfree, hmarker, hnode⟩ :=
      openFor_of_marker hr.free hr.marker schema
    have hcall : h.call payload (.reopen schema) = (⟨d, schema⟩, .done true) := by
      rw [StoreHandle.call, hopen]
    rw [hcall, StoreMap.call]
    refine ⟨rfl, ?_⟩
    by_cases hschema : schema = m.schema
    · subst hschema
      rw [if_pos rfl]
      refine ⟨rfl, hfree, hmarker, fun path hpath => (hr.stands path hpath).congr ?_⟩
      rw [hnode, if_pos rfl]
    · rw [if_neg hschema]
      refine ⟨rfl, hfree, hmarker, fun path _ => ?_⟩
      exact (hnode _).trans (if_neg hschema)
  | store time path print value =>
    obtain ⟨hpath, hfits⟩ := hc
    have hstands := hr.stands path hpath
    have hcall : h.call payload (.store time path print value) =
        (⟨h.directory.setNode (recordName path) (.file ((StoredRecord.codec payload).write
            ⟨m.schema, time, pathKey path, print, value⟩)), h.schema⟩, .done true) := by
      rw [StoreHandle.call, store_of_not_directory hr.free hstands.not_directory, hr.schema]
    rw [hcall]
    refine ⟨rfl, hr.update hused hpath rfl rfl ?_ fun name hne => node?_setNode_of_ne _ hne _⟩
    exact ⟨time, hfits m.schema, node?_setNode_self _ _ _⟩
  | load path =>
    have hcall : h.call payload (.load path) =
        (h, .found (.ofEntry (m.entry (pathKey path)))) := by
      rw [StoreHandle.call, hr.schema, load_of_stands hpayload (hr.stands path hc)]
      rw [← hr.schema]
    rw [hcall]
    exact ⟨rfl, hr⟩
  | loadMatching path wanted =>
    have hcall : h.call payload (.loadMatching path wanted) =
        (h, .found (.ofEntryFor wanted (m.entry (pathKey path)))) := by
      rw [StoreHandle.call, hr.schema, loadMatching_of_stands hpayload (hr.stands path hc)]
      rw [← hr.schema]
    rw [hcall]
    exact ⟨rfl, hr⟩
  | remove path =>
    have hcall : h.call payload (.remove path) =
        (⟨h.directory.dropNode (recordName path), h.schema⟩, .done true) := by
      rw [StoreHandle.call, remove_of_not_directory hr.free (hr.stands path hc).not_directory]
    rw [hcall]
    exact ⟨rfl, hr.update hused hc rfl rfl (node?_dropNode_self _ _)
      fun name hne => node?_dropNode_of_ne _ hne⟩
  | clear =>
    have hcall : h.call payload .clear =
        (⟨{ h.directory with records := some ∅ }, h.schema⟩, .done true) := by
      rw [StoreHandle.call, StoreDirectory.clear, if_neg (by rw [hr.free]; decide)]
    rw [hcall]
    exact ⟨rfl, hr.schema, hr.free, hr.marker, fun path _ => rfl⟩

theorem load_answer (hr : Represents payload used h m) (hpayload : payload.ReadsBack)
    (hused : DistinctRecords used) {path : Path} (hpath : used path) :
    (h.call payload (.load path)).2 = .found (.ofEntry (m.entry (pathKey path))) :=
  (hr.call hpayload hused (c := .load path) hpath).1

theorem loadMatching_answer (hr : Represents payload used h m) (hpayload : payload.ReadsBack)
    (hused : DistinctRecords used) {path : Path} (hpath : used path) (wanted : Fingerprint) :
    (h.call payload (.loadMatching path wanted)).2 =
      .found (.ofEntryFor wanted (m.entry (pathKey path))) :=
  (hr.call hpayload hused (c := .loadMatching path wanted) hpath).1

theorem reopen (hr : Represents payload used h m) (hpayload : payload.ReadsBack)
    (hused : DistinctRecords used) :
    (h.call payload (.reopen h.schema)).2 = .done true ∧
      Represents payload used (h.call payload (.reopen h.schema)).1 m := by
  have hcall := hr.call hpayload hused (c := .reopen h.schema) trivial
  rwa [StoreMap.call, if_pos hr.schema] at hcall

end Represents

/-! ## The history of a key -/

namespace StoreCall

/-- The schema the directory is open for after a call. -/
def schemaAfter (schema : UInt32) : StoreCall α → UInt32
  | .reopen next => next
  | .store _ _ _ _ | .load _ | .loadMatching _ _ | .remove _ | .clear => schema

def Drops (key : String) (schema : UInt32) : StoreCall α → Prop
  | .reopen next => next ≠ schema
  | .store _ path _ _ | .remove path => pathKey path = key
  | .clear => True
  | .load _ | .loadMatching _ _ => False

def path? : StoreCall α → Option Path
  | .store _ path _ _ | .load path | .loadMatching path _ | .remove path => some path
  | .reopen _ | .clear => none

end StoreCall

/-- A store for the key is among the calls, and no later call has dropped it. -/
def LastStored (schema : UInt32) (calls : List (StoreCall α)) (key : String) (print : Fingerprint)
    (value : α) : Prop :=
  ∃ before time path after, calls = before ++ .store time path print value :: after ∧
    pathKey path = key ∧ ∀ c ∈ after, ¬ c.Drops key (before.foldl StoreCall.schemaAfter schema)

variable {schema : UInt32} {key : String} {print : Fingerprint} {value : α}

theorem StoreMap.schema_call (m : StoreMap α) (c : StoreCall α) :
    (m.call c).1.schema = c.schemaAfter m.schema := by
  cases c with
  | reopen next =>
    simp only [StoreMap.call, StoreCall.schemaAfter]
    split
    next heq => exact heq.symm
    next => rfl
  | store | load | loadMatching | remove | clear => rfl

theorem StoreMap.entry_call_iff (m : StoreMap α) (c : StoreCall α) :
    (m.call c).1.entry key = some (print, value) ↔
      (∃ time path, c = .store time path print value ∧ pathKey path = key) ∨
        ¬ c.Drops key m.schema ∧ m.entry key = some (print, value) := by
  cases c with
  | reopen next => by_cases h : next = m.schema <;> simp [StoreMap.call, StoreCall.Drops, h]
  | store time path print' value' =>
    by_cases h : key = pathKey path
    · simp [StoreMap.call, StoreCall.Drops, h]
    · simp [StoreMap.call, StoreCall.Drops, h, Ne.symm h]
  | load => simp [StoreMap.call, StoreCall.Drops]
  | loadMatching => simp [StoreMap.call, StoreCall.Drops]
  | remove path =>
    by_cases h : key = pathKey path
    · simp [StoreMap.call, StoreCall.Drops, h]
    · simp [StoreMap.call, StoreCall.Drops, h, Ne.symm h]
  | clear => simp [StoreMap.call, StoreCall.Drops]

theorem foldl_schemaAfter_of_not_drops {calls : List (StoreCall α)}
    (h : ∀ c ∈ calls, ¬ c.Drops key schema) : calls.foldl StoreCall.schemaAfter schema = schema := by
  induction calls with
  | nil => rfl
  | cons c calls ih =>
    have hkept : c.schemaAfter schema = schema := by
      cases c with
      | reopen next => exact not_not.mp (h _ List.mem_cons_self)
      | store | load | loadMatching | remove | clear => rfl
    rw [List.foldl_cons, hkept]
    exact ih fun c' hc' => h c' (List.mem_cons_of_mem c hc')

theorem lastStored_append_iff (calls : List (StoreCall α)) (c : StoreCall α) :
    LastStored schema (calls ++ [c]) key print value ↔
      (∃ time path, c = .store time path print value ∧ pathKey path = key) ∨
        ¬ c.Drops key (calls.foldl StoreCall.schemaAfter schema) ∧
          LastStored schema calls key print value := by
  -- while nothing is dropped the directory stays open for the same schema
  have hschema (before : List (StoreCall α)) (time : UInt64) (path : Path)
      (after : List (StoreCall α))
      (hafter : ∀ c ∈ after, ¬ c.Drops key (before.foldl StoreCall.schemaAfter schema)) :
      (before ++ .store time path print value :: after).foldl StoreCall.schemaAfter schema =
        before.foldl StoreCall.schemaAfter schema := by
    rw [List.foldl_append, List.foldl_cons, StoreCall.schemaAfter]
    exact foldl_schemaAfter_of_not_drops hafter
  constructor
  · rintro ⟨before, time, path, after, hcalls, hkey, hafter⟩
    rcases List.eq_nil_or_concat after with rfl | ⟨after, last, rfl⟩
    · obtain ⟨-, hc⟩ := List.append_inj' hcalls rfl
      exact Or.inl ⟨time, path, (List.cons.inj hc).1, hkey⟩
    · rw [List.concat_eq_append] at hcalls hafter
      rw [← List.cons_append, ← List.append_assoc] at hcalls
      obtain ⟨rfl, hc⟩ := List.append_inj' hcalls rfl
      obtain rfl := (List.cons.inj hc).1
      have hrest : ∀ c ∈ after, ¬ c.Drops key (before.foldl StoreCall.schemaAfter schema) :=
        fun c' hc' => hafter c' (List.mem_append_left _ hc')
      refine Or.inr ⟨?_, before, time, path, after, rfl, hkey, hrest⟩
      rw [hschema before time path after hrest]
      exact hafter c (List.mem_append_right _ List.mem_cons_self)
  · rintro (⟨time, path, rfl, hkey⟩ | ⟨hc, before, time, path, after, rfl, hkey, hafter⟩)
    · exact ⟨calls, time, path, [], rfl, hkey, by simp⟩
    · rw [hschema before time path after hafter] at hc
      refine ⟨before, time, path, after ++ [c], by simp, hkey, fun c' hc' => ?_⟩
      rcases List.mem_append.mp hc' with hc' | hc'
      · exact hafter c' hc'
      · rwa [List.mem_singleton.mp hc']

/-- The map has for a key just the last store that was not dropped. -/
theorem entry_runCalls_iff (schema : UInt32) (calls : List (StoreCall α)) :
    (runCalls StoreMap.call { schema := schema } calls).1.entry key = some (print, value) ↔
      LastStored schema calls key print value := by
  have hschema (calls : List (StoreCall α)) :
      (runCalls StoreMap.call { schema := schema } calls).1.schema =
        calls.foldl StoreCall.schemaAfter schema := by
    induction calls using List.reverseRecOn with
    | nil => rfl
    | append_singleton calls c ih =>
      rw [runCalls_append, List.foldl_append]
      exact (StoreMap.schema_call _ c).trans (congrArg (StoreCall.schemaAfter · c) ih)
  induction calls using List.reverseRecOn with
  | nil =>
    refine ⟨fun h => by simp [runCalls] at h, ?_⟩
    rintro ⟨before, time, path, after, h, -⟩
    simp at h
  | append_singleton calls c ih =>
    rw [runCalls_append, lastStored_append_iff, ← hschema]
    exact (StoreMap.entry_call_iff _ c).trans (or_congr_right (and_congr_right fun _ => ih))

/-! ## Every sequence of calls -/

theorem Lookup.ofEntry_eq_hit_iff {entry : Option (Fingerprint × α)} :
    Lookup.ofEntry entry = .hit print value ↔ entry = some (print, value) := by
  rcases entry with _ | ⟨print', value'⟩ <;> simp [Lookup.ofEntry]

theorem Lookup.ofEntryFor_eq_mismatch_iff {wanted : Fingerprint}
    {entry : Option (Fingerprint × α)} :
    Lookup.ofEntryFor wanted entry = .miss .fingerprintMismatch ↔
      ∃ print value, entry = some (print, value) ∧ print ≠ wanted := by
  rcases entry with _ | ⟨print', value'⟩
  · simp [Lookup.ofEntryFor]
  · by_cases h : print' = wanted <;> simp [Lookup.ofEntryFor, h]

theorem StoreMap.entry_call_of_ne {m : StoreMap α} {c : StoreCall α} {path : Path}
    (hpath : c.path? = some path) (hne : pathKey path ≠ key) : (m.call c).1.entry key = m.entry key := by
  cases c with
  | reopen | clear => simp [StoreCall.path?] at hpath
  | load | loadMatching => rfl
  | store time other =>
    obtain rfl := Option.some.inj hpath
    exact Function.update_of_ne (Ne.symm hne) _ _
  | remove other =>
    obtain rfl := Option.some.inj hpath
    exact Function.update_of_ne (Ne.symm hne) _ _

namespace StoreHandle

/-- A directory where nothing was stored yet can be opened for any schema, and then answers every
sequence of calls as the map does. A lookup finds the last store for the key of its path that no
later call has dropped, and nothing if there is none; a lookup for a content is told of another
content just when that store had another fingerprint. A call about one key does not change what is
found for another, and opening for the same schema again changes no answer to come. -/
theorem refines_map {payload : Codec α} {used : Path → Prop} (hpayload : payload.ReadsBack)
    (hused : DistinctRecords used) (schema : UInt32) :
    ∃ opened, (default : StoreDirectory).openFor schema = some opened ∧
      ∀ calls : List (StoreCall α), (∀ c ∈ calls, c.Admissible payload used) →
        let run := runCalls (call payload) ⟨opened.1, schema⟩ calls
        run.2 = (runCalls StoreMap.call { schema := schema } calls).2 ∧
        (∀ path, used path →
          (∀ print value, (run.1.call payload (.load path)).2 = .found (.hit print value) ↔
            LastStored schema calls (pathKey path) print value) ∧
          ((∀ print value, ¬ LastStored schema calls (pathKey path) print value) →
            (run.1.call payload (.load path)).2 = .found (.miss .absent)) ∧
          (∀ wanted, (run.1.call payload (.loadMatching path wanted)).2 =
              .found (.miss .fingerprintMismatch) ↔
            ∃ print value, LastStored schema calls (pathKey path) print value ∧ print ≠ wanted) ∧
          ∀ c other, c.Admissible payload used → c.path? = some other →
            pathKey other ≠ pathKey path →
            ((run.1.call payload c).1.call payload (.load path)).2 =
                (run.1.call payload (.load path)).2 ∧
              ∀ wanted, ((run.1.call payload c).1.call payload (.loadMatching path wanted)).2 =
                (run.1.call payload (.loadMatching path wanted)).2) ∧
        ∀ more : List (StoreCall α), (∀ c ∈ more, c.Admissible payload used) →
          (runCalls (call payload) run.1 (.reopen run.1.schema :: more)).2 =
            .done true :: (runCalls (call payload) run.1 more).2 := by
  obtain ⟨opened, hopen, hfree, hmarker, hnone⟩ := StoreDirectory.openFor_default schema
  have hstart : Represents payload used ⟨opened.1, schema⟩ { schema := schema } :=
    ⟨rfl, hfree, hmarker, fun path _ => hnone _⟩
  have hstep (h : StoreHandle) (m : StoreMap α) (c : StoreCall α) (hr : Represents payload used h m)
      (hc : c.Admissible payload used) : _ := hr.call hpayload hused hc
  refine ⟨opened, hopen, fun calls hcalls => ?_⟩
  obtain ⟨hanswers, hr⟩ := runCalls_simulates hstep hstart hcalls
  have hentry (key : String) (print : Fingerprint) (value : α) :=
    @entry_runCalls_iff α key print value schema calls
  generalize runCalls StoreMap.call { schema := schema } calls = mapped at hanswers hr hentry ⊢
  generalize runCalls (call payload) ⟨opened.1, schema⟩ calls = run at hanswers hr ⊢
  refine ⟨hanswers, fun path hpath => ⟨fun print value => ?_, fun hno => ?_, fun wanted => ?_, ?_⟩, ?_⟩
  · rw [hr.load_answer hpayload hused hpath, StoreAnswer.found.injEq, Lookup.ofEntry_eq_hit_iff,
      hentry]
  · rw [hr.load_answer hpayload hused hpath]
    cases h : mapped.1.entry (pathKey path) with
    | none => rfl
    | some entry => exact absurd ((hentry _ _ _).mp h) (hno _ _)
  · rw [hr.loadMatching_answer hpayload hused hpath, StoreAnswer.found.injEq,
      Lookup.ofEntryFor_eq_mismatch_iff]
    simp only [hentry]
  · intro c other hc hother hne
    have hnext := (hr.call hpayload hused hc).2
    have hsame := StoreMap.entry_call_of_ne (m := mapped.1) hother hne
    refine ⟨?_, fun wanted => ?_⟩
    · rw [hr.load_answer hpayload hused hpath, hnext.load_answer hpayload hused hpath, hsame]
    · rw [hr.loadMatching_answer hpayload hused hpath, hnext.loadMatching_answer hpayload hused hpath,
        hsame]
  · intro more hmore
    obtain ⟨hanswer, hreopened⟩ := hr.reopen hpayload hused
    rw [runCalls]
    simp only [hanswer]
    rw [(runCalls_simulates hstep hreopened hmore).1, (runCalls_simulates hstep hr hmore).1]

/-- Two files are stored, the first is removed, and the directory is opened again. -/
def storedAndRemoved : List (StoreCall String) :=
  [.store 0 ⟨"/p/A.java"⟩ ⟨"00ff"⟩ "first", .store 0 ⟨"/p/B.java"⟩ ⟨"11ee"⟩ "second",
    .remove ⟨"/p/A.java"⟩, .reopen 3]

theorem refines_map_storedAndRemoved :
    ∃ opened, (default : StoreDirectory).openFor 3 = some opened ∧
      let run := runCalls (call Codec.text) ⟨opened.1, 3⟩ storedAndRemoved
      (run.1.call Codec.text (.load ⟨"/p/A.java"⟩)).2 = .found (.miss .absent) ∧
      (run.1.call Codec.text (.load ⟨"/p/B.java"⟩)).2 = .found (.hit ⟨"11ee"⟩ "second") ∧
      (run.1.call Codec.text (.loadMatching ⟨"/p/B.java"⟩ ⟨"00ff"⟩)).2 =
        .found (.miss .fingerprintMismatch) := by
  let used (p : Path) : Prop := p = ⟨"/p/A.java"⟩ ∨ p = ⟨"/p/B.java"⟩
  have hused : DistinctRecords used := by
    have hne : Fingerprint.ofText (pathKey ⟨"/p/A.java"⟩) ≠
        Fingerprint.ofText (pathKey ⟨"/p/B.java"⟩) := by decide +kernel
    rintro p q (rfl | rfl) (rfl | rfl) h
    · rfl
    · exact absurd h hne
    · exact absurd h.symm hne
    · rfl
  have hcalls : ∀ c ∈ storedAndRemoved, c.Admissible Codec.text used := by
    intro c hc
    simp only [storedAndRemoved, List.mem_cons, List.not_mem_nil, or_false] at hc
    rcases hc with rfl | rfl | rfl | rfl
    · refine ⟨Or.inl rfl, fun schema => ?_⟩
      rw [StoredRecord.length_write]
      dsimp only
      decide +kernel
    · refine ⟨Or.inr rfl, fun schema => ?_⟩
      rw [StoredRecord.length_write]
      dsimp only
      decide +kernel
    · exact Or.inl rfl
    · exact trivial
  obtain ⟨opened, hopen, hall⟩ := refines_map Codec.faithful_text.readsBack hused 3
  obtain ⟨-, hpaths, -⟩ := hall storedAndRemoved hcalls
  have hkeys : pathKey ⟨"/p/A.java"⟩ = "/p/A.java" ∧ pathKey ⟨"/p/B.java"⟩ = "/p/B.java" := by
    decide +kernel
  have hfirst (print : Fingerprint) (value : String) :
      ¬ LastStored 3 storedAndRemoved (pathKey ⟨"/p/A.java"⟩) print value := by
    rw [← entry_runCalls_iff, hkeys.1]
    simp [storedAndRemoved, runCalls, StoreMap.call, hkeys]
  have hsecond (print : Fingerprint) (value : String) :
      LastStored 3 storedAndRemoved (pathKey ⟨"/p/B.java"⟩) print value ↔
        ⟨"11ee"⟩ = print ∧ "second" = value := by
    rw [← entry_runCalls_iff, hkeys.2]
    simp [storedAndRemoved, runCalls, StoreMap.call, hkeys, Function.update]
  obtain ⟨-, habsent, -⟩ := hpaths ⟨"/p/A.java"⟩ (Or.inl rfl)
  obtain ⟨hhit, -, hmismatch, -⟩ := hpaths ⟨"/p/B.java"⟩ (Or.inr rfl)
  refine ⟨opened, hopen, habsent hfirst, (hhit _ _).mpr ((hsecond _ _).mpr ⟨rfl, rfl⟩), ?_⟩
  exact (hmismatch _).mpr ⟨_, _, (hsecond _ _).mpr ⟨rfl, rfl⟩, by decide⟩

end StoreHandle

end JavaAtlas
