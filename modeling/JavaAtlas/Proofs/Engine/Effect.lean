import JavaAtlas.Proofs.Engine.Batch
import JavaAtlas.Proofs.Index.Lookup
import JavaAtlas.Proofs.Symbols.Bindings
import JavaAtlas.Proofs.Unit.Origin

/-!
# What an analysis does

An analysis removes a file that is gone, passes over one it has seen already, or publishes the
symbols it has for it. Whatever it does, the texts of the files, how they are parsed, the classpath
and the settings stay as they are, and it asks only for files that are indexed.
-/

namespace JavaAtlas

set_option autoImplicit false

open Std (TransCmp OrientedCmp ReflCmp)

namespace Registry

def text? (r : Registry) (p : Path) : Option String := (r.files.get? p).map (·.text)

theorem text?_eq_known? (r : Registry) (p : Path) : r.text? p = (r.known? p).map (·.text) := by
  rw [text?, known?, Option.map_map]
  rfl

theorem contains_eq_isSome_text? (r : Registry) (p : Path) : r.contains p = (r.text? p).isSome := by
  rw [contains, SortedMap.contains_eq_isSome_get?, text?, Option.isSome_map]

theorem Memoizes.text? {r r' : Registry} (h : Memoizes r r') (p : Path) : r'.text? p = r.text? p := by
  rw [text?_eq_known?, h.known, text?_eq_known?]

/-- What an analysis reads of a file: its text and the fingerprint it goes by. -/
def content? (r : Registry) (p : Path) : Option (String × Fingerprint) :=
  (r.files.get? p).map fun f => (f.text, f.fingerprint)

theorem text?_eq_content? (r : Registry) (p : Path) : r.text? p = (r.content? p).map (·.1) := by
  rw [text?, content?, Option.map_map]
  rfl

theorem Sound.content?_eq {r : Registry} (h : r.Sound) (p : Path) :
    r.content? p = (r.text? p).map fun text => (text, .ofText text) := by
  rw [content?, text?, Option.map_map]
  cases hf : r.files.get? p with
  | none => rfl
  | some f => rw [Option.map_some, Option.map_some, (h p f hf).fingerprint_eq]; rfl

theorem Memoizes.content? {r r' : Registry} (h : Memoizes r r') (hsound : r.Sound) (p : Path) :
    r'.content? p = r.content? p := by
  rw [(h.sound hsound).content?_eq, h.text?, hsound.content?_eq]

theorem content?_congr (r : Registry) {p q : Path} (h : compare p q = .eq) :
    r.content? p = r.content? q := by
  rw [content?, SortedMap.get?_congr _ h, content?]

theorem content?_file (r : Registry) (p x : Path) : (r.file p).1.content? x = r.content? x := by
  rw [content?, get?_files_file, content?]
  split
  · rw [Option.map_map]
    rfl
  · rfl

theorem content?_setLastAnalyzed (r : Registry) (p x : Path) (print : Fingerprint) (v : Nat) :
    (r.setLastAnalyzed p print v).content? x = r.content? x := by
  rw [content?, get?_files_setLastAnalyzed, content?]
  split
  · rw [Option.map_map]
    congr 1
    funext f
    simp only [Function.comp_apply]
    split <;> rfl
  · rfl

theorem content?_releaseTombstone (r : Registry) (p x : Path) :
    (r.releaseTombstone p).content? x = r.content? x := by
  rw [content?, files_releaseTombstone, content?]

end Registry

namespace Engine

/-! ## What stays -/

/-- What no analysis touches, here and in the queue. -/
structure Keeps (e e' : Engine) : Prop where
  config : e'.config = e.config
  classpath : e'.classpath = e.classpath
  store : e'.store = e.store
  queue : e'.queue = e.queue
  inFlight : e'.inFlight = e.inFlight
  parse : e'.parses.parse = e.parses.parse
  content : ∀ p, e'.registry.content? p = e.registry.content? p

theorem Keeps.text {e e' : Engine} (h : Keeps e e') (p : Path) :
    e'.registry.text? p = e.registry.text? p := by
  rw [Registry.text?_eq_content?, h.content, Registry.text?_eq_content?]

theorem Keeps.trans {a b c : Engine} (h : Keeps a b) (h' : Keeps b c) : Keeps a c where
  config := h'.config.trans h.config
  classpath := h'.classpath.trans h.classpath
  store := h'.store.trans h.store
  queue := h'.queue.trans h.queue
  inFlight := h'.inFlight.trans h.inFlight
  parse := h'.parse.trans h.parse
  content p := (h'.content p).trans (h.content p)

theorem Agrees.keeps {e e' : Engine} (h : Agrees e e')
    (hparse : e'.parses.parse = e.parses.parse) : Keeps e e' :=
  ⟨h.config, h.classpath, h.store, h.queue, h.inFlight, hparse, fun p => by rw [h.registry]⟩

theorem parses_loadMatching (e : Engine) (path : Path) (print : Fingerprint) :
    (e.loadMatching path print).1.parses = e.parses := by
  rw [loadMatching]
  split <;> rfl

theorem parses_storeRecord (e : Engine) (path : Path) (print : Fingerprint) (symbols : FileSymbols) :
    (e.storeRecord path print symbols).parses = e.parses := by
  rw [storeRecord]
  split
  · rfl
  · split <;> rfl

theorem parses_cachedSymbols? (e : Engine) (path : Path) (file : SourceFile) :
    (e.cachedSymbols? path file).1.parses = e.parses := by
  have h := parses_loadMatching e path file.fingerprint
  rw [cachedSymbols?]
  split
  · rename_i heq
    rw [heq] at h
    split
    · exact h
    · split <;> exact h
  · rename_i heq
    rw [heq] at h
    exact h

theorem parse_compute (e : Engine) (path : Path) (file : SourceFile) :
    (e.compute path file).1.parses.parse = e.parses.parse := by
  rw [compute]
  simp only [parses_storeRecord]
  exact ParseCache.parse_parseCached _ _ _ _

theorem parse_symbolsOf (e : Engine) (path : Path) (trigger : Trigger) (file : SourceFile) :
    (e.symbolsOf path trigger file).1.parses.parse = e.parses.parse := by
  cases trigger with
  | dependency => exact parse_compute e path file
  | content =>
    have h := parses_cachedSymbols? e path file
    rw [symbolsOf]
    split
    · rename_i heq
      rw [heq] at h
      rw [h]
    · rename_i heq
      rw [heq] at h
      exact (parse_compute _ path file).trans (by rw [h])

theorem keeps_symbolsOf (e : Engine) (path : Path) (trigger : Trigger) (file : SourceFile) :
    Keeps e (e.symbolsOf path trigger file).1 :=
  (agrees_symbolsOf e path trigger file).keeps (parse_symbolsOf e path trigger file)

theorem keeps_file (e : Engine) (path : Path) :
    Keeps e { e with registry := (e.registry.file path).1 } :=
  ⟨rfl, rfl, rfl, rfl, rfl, rfl, e.registry.content?_file path⟩

/-! ## The symbols that are published -/

/-- The symbols of a unit, its names bound against the index as it is. -/
def symbolsFor (e : Engine) (text : String) (u : SourceUnit) : FileSymbols :=
  if text.utf8ByteSize > e.config.indexing.maxFileBytes then Extraction.ofSource u
  else Extraction.ofAttributed (u.bindTypes (e.contextOf e.index))

/-- Symbols bound against the index as it is, or not bound at all. -/
def Computed (e : Engine) (symbols : FileSymbols) : Prop :=
  ∃ text unit, symbols = e.symbolsFor text unit

/-- Symbols stored for this content. They have failed on nothing the index has now, and nothing they
are bound to is known to have gone. -/
structure Recalled (e : Engine) (path : Path) (file : SourceFile) (symbols : FileSymbols) : Prop where
  stored : ∃ print, (e.loadMatching path file.fingerprint).2 = .hit print symbols
  waits : ∀ name ∈ symbols.unresolved, e.index.canResolve name = false
  bound : e.unboundTarget? symbols e.index = none

theorem unboundTarget?_congr {e e' : Engine} (hclasspath : e'.classpath = e.classpath)
    (hqueue : e'.queue = e.queue) (symbols : FileSymbols) (index : Snapshot) :
    e'.unboundTarget? symbols index = e.unboundTarget? symbols index := by
  simp only [unboundTarget?, contextOf, hclasspath, hqueue]

theorem unboundTarget?_eq_none_iff (e : Engine) (symbols : FileSymbols) (index : Snapshot) :
    e.unboundTarget? symbols index = none ↔
      ∀ target ∈ symbols.boundTargets, target ∈ symbols.types.map (·.fqn) ∨
        (e.contextOf index).hasType target = true ∨ e.queue.promised.contains target = true := by
  rw [unboundTarget?, List.find?_eq_none]
  simp only [Bool.and_eq_true, Bool.not_eq_true', Bool.not_eq_false, not_and]
  refine forall₂_congr fun target _ => ?_
  by_cases hown : target ∈ symbols.types.map (·.fqn)
  · simp [hown]
  · by_cases hknown : (e.contextOf index).hasType target = true <;> simp [hown, hknown]

theorem compute_eq (e : Engine) (path : Path) (file : SourceFile) :
    (e.compute path file).2 =
      e.symbolsFor file.text (e.parses.parseCached path file.text file.fingerprint).2 := rfl

theorem Computed.known {e : Engine} {symbols : FileSymbols} (h : e.Computed symbols) {target : String}
    (htarget : target ∈ symbols.boundTargets) :
    target ∈ symbols.types.map (·.fqn) ∨ (e.contextOf e.index).hasType target = true := by
  obtain ⟨text, unit, rfl⟩ := h
  rw [symbolsFor] at htarget ⊢
  split at htarget
  · rw [(Extraction.sound_ofSource unit).mem_boundTargets_iff] at htarget
    simp [Extraction.ofSource] at htarget
  · rename_i hsmall
    rw [(Extraction.sound_ofAttributed unit _).mem_boundTargets_iff] at htarget
    rw [if_neg hsmall]
    exact Extraction.known_of_mem_references htarget

theorem recalled_of_cachedSymbols? {e e' : Engine} {path : Path} {file : SourceFile}
    {symbols : FileSymbols} (h : e.cachedSymbols? path file = (e', some symbols)) :
    e.Recalled path file symbols := by
  have hagrees := agrees_loadMatching e path file.fingerprint
  rw [cachedSymbols?] at h
  split at h
  next e₁ print found heq =>
    rw [heq] at hagrees
    have hindex : e₁.index = e.index := hagrees.index
    split at h
    · simp at h
    · rename_i hwaits
      split at h
      · simp at h
      · rename_i hbound
        obtain ⟨-, hsome⟩ := Prod.mk.inj h
        obtain rfl := Option.some.inj hsome
        rw [hindex, Bool.not_eq_true, List.any_eq_false] at hwaits
        rw [hindex, unboundTarget?_congr hagrees.classpath hagrees.queue, Bool.not_eq_true,
          Option.isSome_eq_false_iff, Option.isNone_iff_eq_none] at hbound
        exact ⟨⟨print, by rw [heq]⟩, fun name hname => by simpa using hwaits name hname, hbound⟩
  next => simp at h

/-- After a lookup that failed the same is computed as without it. -/
theorem compute_of_cachedSymbols? {e e' : Engine} {path : Path} {file : SourceFile}
    {found : Option FileSymbols} (h : e.cachedSymbols? path file = (e', found)) :
    (e'.compute path file).2 =
      e.symbolsFor file.text (e.parses.parseCached path file.text file.fingerprint).2 := by
  have hagrees : Agrees e e' := by
    have hall := agrees_cachedSymbols? e path file
    rwa [h] at hall
  have hparses : e'.parses = e.parses := by
    rw [← parses_cachedSymbols? e path file, h]
  simp only [compute_eq, symbolsFor, contextOf, hagrees.index, hagrees.classpath, hagrees.config,
    hparses]

/-- The symbols of a file are those of its unit, or they are recalled. -/
theorem symbolsOf_cases (e : Engine) (path : Path) (trigger : Trigger) (file : SourceFile) :
    (e.symbolsOf path trigger file).2.1 =
        e.symbolsFor file.text (e.parses.parseCached path file.text file.fingerprint).2 ∨
      (trigger = .content ∧ e.Recalled path file (e.symbolsOf path trigger file).2.1) := by
  cases trigger with
  | dependency => exact Or.inl rfl
  | content =>
    rw [symbolsOf]
    split
    next e₁ symbols heq => exact Or.inr ⟨rfl, recalled_of_cachedSymbols? heq⟩
    next e₁ heq => exact Or.inl (compute_of_cachedSymbols? heq)

theorem symbolsOf_spec (e : Engine) (path : Path) (trigger : Trigger) (file : SourceFile) :
    e.Computed (e.symbolsOf path trigger file).2.1 ∨
      (trigger = .content ∧ e.Recalled path file (e.symbolsOf path trigger file).2.1) :=
  (e.symbolsOf_cases path trigger file).imp_left fun heq => ⟨_, _, heq⟩

/-! ## What happens -/

/-- The engine in which a file has been looked up. -/
def reading (e : Engine) (path : Path) : Engine := { e with registry := (e.registry.file path).1 }

/-- What an analysis does to the index, and what it finds out. -/
inductive Effect (e : Engine) (path : Path) (trigger : Trigger) : Snapshot → Analysis → Prop
  | gone (hfile : (e.registry.file path).2 = none) :
    Effect e path trigger (e.index.remove path).1
      { removed := true,
        stale := if (e.index.remove path).2 then SortedSet.ofList (e.index.dependents path) else ∅ }
  | passed (file : SourceFile) (hfile : (e.registry.file path).2 = some file)
    (htrigger : trigger = .content) : Effect e path trigger e.index {}
  | published (file : SourceFile) (hfile : (e.registry.file path).2 = some file)
    (symbols : FileSymbols) (fromCache : Bool)
    (hsymbols : ((e.reading path).symbolsOf path trigger file).2 = (symbols, fromCache))
    (after : Snapshot) (outcome : UpsertOutcome)
    (hupsert : e.index.upsert path file.fingerprint symbols = (after, outcome)) :
    Effect e path trigger after
      { fromCache := fromCache
        stale := staleAfter path outcome e.index after
        requeue := !outcome.unchanged && e.bindingsMoved path outcome e.index after }

theorem bindingsMoved_congr {e e' : Engine} (hclasspath : e'.classpath = e.classpath)
    (hqueue : e'.queue = e.queue) (path : Path) (outcome : UpsertOutcome) (before after : Snapshot) :
    e'.bindingsMoved path outcome before after = e.bindingsMoved path outcome before after := by
  simp only [bindingsMoved, unboundTarget?, contextOf, hclasspath, hqueue]

theorem keeps_forget (e : Engine) (path : Path) : Keeps e (e.forget path).1 where
  config := (agrees_removeRecord e path).config
  classpath := (agrees_removeRecord e path).classpath
  store := (agrees_removeRecord e path).store
  queue := (agrees_removeRecord e path).queue
  inFlight := (agrees_removeRecord e path).inFlight
  parse := rfl
  content p := e.registry.content?_releaseTombstone path p

theorem keeps_publish (e : Engine) (path : Path) (file : SourceFile) (symbols : FileSymbols)
    (fromCache : Bool) : Keeps e (e.publish path file symbols fromCache).1 :=
  ⟨rfl, rfl, rfl, rfl, rfl, rfl, fun p => e.registry.content?_setLastAnalyzed path p _ _⟩

theorem analyzeFile_spec (e : Engine) (path : Path) (trigger : Trigger) :
    Keeps e (e.analyzeFile path trigger).1 ∧
      Effect e path trigger (e.analyzeFile path trigger).1.index (e.analyzeFile path trigger).2 := by
  rcases hfile : e.registry.file path with ⟨registry, _ | file⟩
  · rw [analyzeFile_of_missing hfile]
    exact ⟨keeps_forget e path, .gone (by rw [hfile])⟩
  · have hfound : (e.registry.file path).2 = some file := by rw [hfile]
    have hreading : { e with registry := registry } = e.reading path := by rw [reading, hfile]
    have hkeeps : Keeps e (e.reading path) := keeps_file e path
    rw [analyzeFile_of_found hfile, hreading]
    by_cases hskip : (e.reading path).skips (e.reading path).index path trigger file = true
    · simp only [hskip, if_true]
      have htrigger : trigger = .content := by
        rw [skips, Bool.and_eq_true, decide_eq_true_iff] at hskip
        exact hskip.1
      exact ⟨hkeeps, .passed file hfound htrigger⟩
    · simp only [hskip, Bool.false_eq_true, if_false]
      have hagrees := agrees_symbolsOf (e.reading path) path trigger file
      have hsymbols := keeps_symbolsOf (e.reading path) path trigger file
      rcases hr : (e.reading path).symbolsOf path trigger file with ⟨e₁, symbols, fromCache⟩
      rw [hr] at hagrees hsymbols
      rcases hupsert : e.index.upsert path file.fingerprint symbols with ⟨after, outcome⟩
      have hindex : e₁.index = e.index := hagrees.index
      have hmoved (index : Snapshot) (registry : Registry) :
          { e₁ with registry := registry, index := index }.bindingsMoved path outcome e.index after =
            e.bindingsMoved path outcome e.index after :=
        bindingsMoved_congr hagrees.classpath hagrees.queue path outcome e.index after
      refine ⟨(hkeeps.trans hsymbols).trans (keeps_publish _ _ _ _ _), ?_⟩
      simp only [publish, hindex, hupsert, hmoved]
      exact .published file hfound symbols fromCache (by rw [hr]) after outcome hupsert

theorem mem_staleAfter {before after : Snapshot} (hbefore : before.Exact) (hafter : after.Exact)
    {path p : Path} {outcome : UpsertOutcome}
    (hp : p ∈ SortedSet.toList (staleAfter path outcome before after)) :
    ∃ x, (x ∈ before.entries ∨ x ∈ after.entries) ∧ x.path = p := by
  rw [staleAfter] at hp
  split at hp
  · simp [SortedSet.toList, SortedMap.keys, EmptyCollection.emptyCollection] at hp
  · have hmem := SortedSet.mem_of_mem_ofList ((SortedSet.mem_toList_erase_iff _ path p).mp hp).1
    rcases List.mem_append.mp hmem with hmem | hmem
    · split at hmem
      · rcases List.mem_append.mp hmem with hmem | hmem
        · obtain ⟨x, hx, hpath⟩ := hbefore.mem_entries_of_mem_dependents hmem
          exact ⟨x, Or.inl hx, hpath⟩
        · obtain ⟨x, hx, hpath⟩ := hafter.mem_entries_of_mem_dependents hmem
          exact ⟨x, Or.inr hx, hpath⟩
      · simp at hmem
    · obtain ⟨x, hx, hpath⟩ := hafter.mem_entries_of_mem_filesWithUnresolved hmem
      exact ⟨x, Or.inr hx, hpath⟩

namespace Effect

variable {e : Engine} {path : Path} {trigger : Trigger} {after : Snapshot} {a : Analysis}

theorem exact (h : Effect e path trigger after a) (hindex : e.index.Exact) : after.Exact := by
  cases h with
  | gone hfile => exact hindex.remove path
  | passed file hfile htrigger => exact hindex
  | published file hfile symbols fromCache hsymbols after outcome hupsert =>
    have hexact := hindex.upsert path file.fingerprint symbols
    rwa [hupsert] at hexact

theorem mem_entries (h : Effect e path trigger after a) (hindex : e.index.Exact) {x : FileEntry}
    (hx : x ∈ after.entries) : x ∈ e.index.entries ∨ x.path = path := by
  cases h with
  | gone hfile => exact Or.inl (hindex.mem_of_mem_remove hx)
  | passed file hfile htrigger => exact Or.inl hx
  | published file hfile symbols fromCache hsymbols after outcome hupsert =>
    obtain rfl : (e.index.upsert path file.fingerprint symbols).1 = after := by rw [hupsert]
    exact (hindex.mem_or_eq_of_mem_upsert hx).imp_right fun hx => by rw [hx]

theorem mem_stale (h : Effect e path trigger after a) (hindex : e.index.Exact) {p : Path}
    (hp : p ∈ SortedSet.toList a.stale) :
    ∃ x, (x ∈ e.index.entries ∨ x ∈ after.entries) ∧ x.path = p := by
  have hafter := h.exact hindex
  have hnone : p ∉ SortedSet.toList (∅ : SortedSet Path) := by
    simp [SortedSet.toList, SortedMap.keys, EmptyCollection.emptyCollection]
  cases h with
  | gone hfile =>
    simp only at hp
    split at hp
    · obtain ⟨x, hx, hpath⟩ :=
        hindex.mem_entries_of_mem_dependents (SortedSet.mem_of_mem_ofList hp)
      exact ⟨x, Or.inl hx, hpath⟩
    · exact absurd hp hnone
  | passed file hfile htrigger => exact absurd hp hnone
  | published file hfile symbols fromCache hsymbols after outcome hupsert =>
    exact mem_staleAfter hindex hafter hp

end Effect

/-! ## The whole step -/

def withJobs (e : Engine) (jobs : List (Path × Trigger)) : Engine := { e with inFlight := jobs }

/-- What an analysis found out, and the files that relied on the promises made for its file. -/
def verdict (e : Engine) (path : Path) (a : Analysis) : Analysis :=
  { a with stale :=
      (SortedSet.addAll a.stale (e.disappointed path (e.queue.release path).2)).erase path }

def conclude (e : Engine) (path : Path) (a : Analysis) : Engine :=
  let r := (e.queue.release path).1.finish e.workers path (some (e.verdict path a))
  { e with queue := r.1, inFlight := e.inFlight ++ r.2 }

theorem index_conclude (e : Engine) (path : Path) (a : Analysis) :
    (e.conclude path a).index = e.index := by
  rw [conclude]

theorem registry_conclude (e : Engine) (path : Path) (a : Analysis) :
    (e.conclude path a).registry = e.registry := by
  rw [conclude]

theorem classpath_conclude (e : Engine) (path : Path) (a : Analysis) :
    (e.conclude path a).classpath = e.classpath := by
  rw [conclude]

theorem world_conclude (e : Engine) (path : Path) (a : Analysis) :
    (e.conclude path a).world = e.world := by
  rw [conclude]

theorem queue_conclude (e : Engine) (path : Path) (a : Analysis) :
    (e.conclude path a).queue =
      ((e.queue.release path).1.finish e.workers path (some (e.verdict path a))).1 := by
  rw [conclude]

theorem inFlight_conclude (e : Engine) (path : Path) (a : Analysis) :
    (e.conclude path a).inFlight = e.inFlight ++
      ((e.queue.release path).1.finish e.workers path (some (e.verdict path a))).2 := by
  rw [conclude]

theorem step_of_nil {e : Engine} (h : e.inFlight = []) : e.step = e := by
  rw [step, h]

/-- What every analysis preserves holds after any number of them. -/
theorem run_of_step {P : Engine → Prop} (hstep : ∀ e, P e → P e.step) (n : Nat) {e : Engine}
    (h : P e) : P (e.run n) := by
  induction n generalizing e with
  | zero => exact h
  | succ n ih =>
    rw [run]
    split
    · exact h
    · exact ih (hstep e h)

/-- Everything a step can do. -/
theorem step_of_cons {e : Engine} {path : Path} {trigger : Trigger} {rest : List (Path × Trigger)}
    (h : e.inFlight = (path, trigger) :: rest) :
    ∃ e' a, (e.withJobs rest).analyzeFile path trigger = (e', a) ∧ Keeps (e.withJobs rest) e' ∧
      Effect (e.withJobs rest) path trigger e'.index a ∧ e.step = e'.conclude path a := by
  obtain ⟨hkeeps, heffect⟩ := analyzeFile_spec (e.withJobs rest) path trigger
  rcases hanalyze : (e.withJobs rest).analyzeFile path trigger with ⟨e', a⟩
  rw [hanalyze] at hkeeps heffect
  refine ⟨e', a, rfl, hkeeps, heffect, ?_⟩
  rw [withJobs] at hanalyze
  rw [step, h]
  simp only [analyze, hanalyze]
  rfl

theorem mem_disappointed {e : Engine} (hindex : e.index.Exact) {path p : Path}
    {promised : List String} (hp : p ∈ e.disappointed path promised) :
    ∃ x ∈ e.index.entries, x.path = p := by
  obtain ⟨usage, husage, rfl⟩ := List.mem_map.mp hp
  obtain ⟨target, -, husage⟩ := List.mem_flatMap.mp husage
  obtain ⟨x, hx, hpath, -⟩ :=
    (hindex.mem_usages_iff target usage.path).mp (List.mem_map_of_mem husage)
  exact ⟨x, hx, hpath⟩

/-- What an analysis finds out of date, and who relied on a promise, is asked for. -/
theorem oneOf_asked_of_verdict {e : Engine} {path x : Path} {a : Analysis}
    (hx : x.OneOf (SortedSet.toList a.stale) ∨
      x.OneOf (e.disappointed path (e.queue.release path).2)) (hne : compare x path ≠ .eq) :
    x.OneOf (Queue.asked path (e.verdict path a)) := by
  rw [Queue.asked, Path.oneOf_append_iff]
  refine Or.inr (SortedSet.contains_iff_exists_mem.mp ?_)
  rw [verdict, SortedMap.contains_erase, SortedSet.contains_addAll, Bool.and_eq_true, bne_iff_ne,
    Bool.or_eq_true, List.any_eq_true]
  refine ⟨hne, hx.imp (fun hx => SortedSet.contains_iff_exists_mem.mpr hx) ?_⟩
  rintro ⟨p, hp, hc⟩
  exact ⟨p, hp, by simp [hc]⟩

theorem oneOf_asked_of_requeue {path x : Path} {a : Analysis} (hrequeue : a.requeue = true)
    (hc : compare x path = .eq) : x.OneOf (Queue.asked path a) := by
  rw [Queue.asked, hrequeue, if_pos rfl, Path.oneOf_append_iff]
  exact Or.inl ⟨path, List.mem_singleton.mpr rfl, hc⟩

/-! ## A file alone -/

theorem hasType_contextOf (e : Engine) (index : Snapshot) (name : String) :
    (e.contextOf index).hasType name = (index.typeExists name || e.classpath.hasType name) := rfl

theorem Effect.not_requeued {e : Engine} {path : Path} {trigger : Trigger} {after : Snapshot}
    {a : Analysis} (h : Effect e path trigger after a) (hindex : e.index.Exact)
    (hempty : e.index.entries = []) : a.requeue = false := by
  cases h with
  | gone hfile => rfl
  | passed file hfile htrigger => rfl
  | published file hfile symbols fromCache hsymbols after outcome hupsert =>
    have hnew : e.index.holds path file.fingerprint symbols = false := by
      apply Snapshot.not_holds_of_none
      rw [Option.eq_none_iff_forall_ne_some]
      intro x hx
      have hmem := (hindex.file?_eq_some_iff.mp hx).1
      simp [hempty] at hmem
    have houtcome := Snapshot.upsert_of_not_holds hnew
    rw [hupsert] at houtcome
    have hentries := hindex.mem_entries_upsert_iff hnew
    have hafter := hindex.upsert path file.fingerprint symbols
    rw [hupsert] at hentries hafter
    obtain rfl : outcome = e.index.changeReport path symbols := houtcome
    have hunbound : e.unboundTarget? symbols after = none := by
      have hbefore : e.unboundTarget? symbols e.index = none := by
        have hspec := symbolsOf_spec (e.reading path) path trigger file
        rw [hsymbols] at hspec
        rcases hspec with hcomputed | ⟨-, hrecalled⟩
        · rw [unboundTarget?_eq_none_iff]
          exact fun target htarget => (hcomputed.known htarget).imp_right Or.inl
        · exact hrecalled.bound
      rw [unboundTarget?_eq_none_iff] at hbefore ⊢
      intro target htarget
      refine (hbefore target htarget).imp_right fun hknown => hknown.imp_left fun hknown => ?_
      rw [hasType_contextOf, Bool.or_eq_true, hindex.typeExists_iff, hempty] at hknown
      rw [hasType_contextOf, Bool.or_eq_true]
      exact Or.inr (hknown.resolve_left (by simp))
    have hmoved : e.bindingsMoved path (e.index.changeReport path symbols) e.index after = false := by
      have hmem : ⟨path, file.fingerprint, symbols⟩ ∈ after.entries := (hentries _).mpr (Or.inl rfl)
      rw [bindingsMoved, hafter.file?_eq_some_iff.mpr ⟨hmem, ReflCmp.compare_self⟩]
      simp [hunbound, Snapshot.changeReport]
    simp [hmoved]

/-- One file is being analyzed, nothing else is indexed or waits. -/
def isAlone (e : Engine) : Bool :=
  e.inFlight.length == 1 && e.queue.queue.isEmpty && e.queue.running == 1 &&
    e.queue.rerun.isEmpty && e.index.entries.isEmpty

theorem isIdle_step_of_isAlone {e : Engine} (h : e.isAlone = true) (hindex : e.index.Exact) :
    e.step.isIdle = true := by
  simp only [isAlone, Bool.and_eq_true, beq_iff_eq, List.isEmpty_iff] at h
  obtain ⟨⟨⟨⟨hlength, hqueue⟩, hrunning⟩, hrerun⟩, hempty⟩ := h
  obtain ⟨⟨path, trigger⟩, hin⟩ := List.length_eq_one_iff.mp hlength
  replace hrerun : e.queue.rerun.contains path = false := by
    rw [SortedMap.isEmpty, List.isEmpty_iff] at hrerun
    simp [SortedMap.contains, SortedMap.find?, hrerun]
  obtain ⟨e', a, -, hkeeps, heffect, hstep⟩ := step_of_cons hin
  have hafter : e'.index.Exact := heffect.exact hindex
  have honly : ∀ x ∈ e'.index.entries, x.path = path := by
    intro x hx
    refine (heffect.mem_entries hindex hx).resolve_left fun hx => ?_
    rw [show (e.withJobs []).index.entries = [] from hempty] at hx
    simp at hx
  have hstale : SortedSet.toList (e'.verdict path a).stale = [] := by
    rw [List.eq_nil_iff_forall_not_mem]
    intro p hp
    obtain ⟨hp, hne⟩ := (SortedSet.mem_toList_erase_iff _ path p).mp hp
    have hentry : ∃ x ∈ e'.index.entries, x.path = p := by
      rcases SortedSet.mem_addAll hp with hp | hp
      · obtain ⟨x, hx | hx, hpath⟩ := heffect.mem_stale hindex hp
        · rw [show (e.withJobs []).index.entries = [] from hempty] at hx
          simp at hx
        · exact ⟨x, hx, hpath⟩
      · exact mem_disappointed hafter hp
    obtain ⟨x, hx, rfl⟩ := hentry
    rw [honly x hx] at hne
    exact hne ReflCmp.compare_self
  have hasked : Queue.asked path (e'.verdict path a) = [] := by
    have hrequeue : (e'.verdict path a).requeue = false := heffect.not_requeued hindex hempty
    rw [Queue.asked, hstale, hrequeue]
    rfl
  have hsame : e'.queue = e.queue := hkeeps.queue
  have hqueue' : (e'.queue.release path).1.queue = [] := by rw [hsame]; exact hqueue
  have hrunning' : (e'.queue.release path).1.running = 1 := by rw [hsame]; exact hrunning
  have hrerun' : (e'.queue.release path).1.rerun.contains path = false := by rw [hsame]; exact hrerun
  rw [hstep, isIdle, queue_conclude]
  exact Queue.isIdle_finish hqueue' hrunning' hrerun' hasked _

end Engine

end JavaAtlas
