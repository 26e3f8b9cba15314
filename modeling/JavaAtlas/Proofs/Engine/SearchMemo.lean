import JavaAtlas.Proofs.Engine.WarmStart
import Mathlib.Data.List.Pairwise

/-!
# The search index at hand

A search is answered from the search index built last if that was for the same generation. However
the index is changed meanwhile, and whichever of its snapshots a search began with, the answer is
that of a search index built from this snapshot: a generation is used up by every change of the
files and by nothing else, so no two snapshots share one.
-/

namespace JavaAtlas

set_option autoImplicit false

/-! ## What a change publishes -/

namespace Snapshot

def Publishes (s s' : Snapshot) : Prop :=
  s' = s ∨ (s'.files ≠ s.files ∧ s'.generation = s.generation + 1)

theorem publishes_upsert (s : Snapshot) (path : Path) (print : Fingerprint)
    (symbols : FileSymbols) : s.Publishes (s.upsert path print symbols).1 := by
  cases hholds : s.holds path print symbols with
  | true => exact .inl (by rw [upsert_of_holds hholds])
  | false =>
    refine .inr ⟨fun hsame => ?_, ?_⟩
    · have hfile : s.file? path = some ⟨path, print, symbols⟩ := by
        rw [file?, ← hsame, files_upsert, hholds]
        exact SortedMap.get?_insert_self _ _ _
      simp [holds, hfile] at hholds
    · rw [generation_upsert, hholds]
      rfl

theorem publishes_remove (s : Snapshot) (path : Path) : s.Publishes (s.remove path).1 := by
  cases hfile : s.file? path with
  | none => exact .inl (by rw [remove, hfile]; rfl)
  | some entry =>
    refine .inr ⟨fun hsame => ?_, ?_⟩
    · have hgone : s.file? path = none := by
        rw [file?, ← hsame, files_remove, SortedMap.get?_erase, if_pos Std.ReflCmp.compare_self]
      rw [hgone] at hfile
      simp at hfile
    · rw [remove, hfile]
      rfl

theorem Publishes.later {s s' : Snapshot} (h : s.Publishes s') :
    s' = s ∨ s.generation < s'.generation :=
  h.imp_right fun hnext => by omega

end Snapshot

/-! ## Searching -/

namespace Engine

def searchFor (e : Engine) (s : Snapshot) : SearchIndex :=
  match e.search with
  | some m => if m.generation = s.generation then m else .build s
  | none => .build s

/-- A search that looked at the index when it was `s`. -/
def searchIn (e : Engine) (s : Snapshot) (query : String) (limit : Nat) :
    Engine × List SearchResult :=
  ({ e with search := some (e.searchFor s) }, ((e.searchFor s).search query limit).results)

theorem searchSymbols_eq (e : Engine) (query : String) (limit : Nat) :
    e.searchSymbols query limit = e.searchIn e.index query limit := rfl

/-- The snapshots so far, the latest first, are of different generations where they differ, and the
search index at hand was built from one of them. -/
structure Faithful (e : Engine) (old : List Snapshot) : Prop where
  ordered : (e.index :: old).Pairwise fun t s => t = s ∨ s.generation < t.generation
  built : ∀ m, e.search = some m → ∃ s ∈ e.index :: old, m = .build s

namespace Faithful

variable {e e' : Engine} {old : List Snapshot} {s t : Snapshot}

theorem eq_of_generation_eq (h : e.Faithful old) (hs : s ∈ e.index :: old)
    (ht : t ∈ e.index :: old) (heq : s.generation = t.generation) : s = t := by
  have hsymm : Std.Symm fun s t : Snapshot => s.generation = t.generation → s = t :=
    ⟨fun _ _ hst heq => (hst heq.symm).symm⟩
  have hpairs : (e.index :: old).Pairwise fun s t => s.generation = t.generation → s = t :=
    h.ordered.imp fun hlater heq => hlater.resolve_right (by omega)
  exact hpairs.forall_of_forall (fun _ _ _ => rfl) hs ht heq

theorem searchFor_eq (h : e.Faithful old) (hs : s ∈ e.index :: old) :
    e.searchFor s = .build s := by
  rw [searchFor]
  -- of the same generation there is but one snapshot, so the index at hand was built from `s`
  cases hm : e.search with
  | none => rfl
  | some m =>
    obtain ⟨t, ht, rfl⟩ := h.built m hm
    simp only
    split
    next heq => rw [h.eq_of_generation_eq ht hs heq]
    next => rfl

theorem later (h : e.Faithful old)
    (hlater : e'.index = e.index ∨ e.index.generation < e'.index.generation)
    (hbuilt : ∀ m, e'.search = some m → ∃ s ∈ e.index :: old, m = .build s) :
    e'.Faithful (e.index :: old) := by
  have hbefore := (List.pairwise_cons.mp h.ordered).1
  refine ⟨List.pairwise_cons.mpr ⟨fun s hs => ?_, h.ordered⟩, fun m hm => ?_⟩
  · have hs : s = e.index ∨ s.generation < e.index.generation := by
      rcases List.mem_cons.mp hs with rfl | hs
      · exact .inl rfl
      · exact (hbefore s hs).imp_left Eq.symm
    rcases hlater with hlater | hlater
    · rw [hlater]
      exact hs.imp_left Eq.symm
    · rcases hs with rfl | hs
      · exact .inr hlater
      · exact .inr (Nat.lt_trans hs hlater)
  · obtain ⟨s, hs, rfl⟩ := hbuilt m hm
    exact ⟨s, List.mem_cons_of_mem _ hs, rfl⟩

end Faithful

/-! ## What goes on between searches -/

/-- The search index at hand is left alone, and the index changes at most by one file. -/
structure Unsearched (e e' : Engine) : Prop where
  search : e'.search = e.search
  index : e.index.Publishes e'.index

theorem Agrees.unsearched {e e' : Engine} (h : Agrees e e') : e.Unsearched e' :=
  ⟨h.search, .inl h.index⟩

theorem unsearched_advance (e : Engine) (path : Path) (trigger : Trigger) (stage : Stage) :
    e.Unsearched (e.advance path trigger stage).1 := by
  have haside {e' : Engine} (hsearch : e'.search = e.search) (hindex : e'.index = e.index) :
      e.Unsearched e' := ⟨hsearch, .inl hindex⟩
  cases stage with
  | viewed before =>
    rcases hfile : e.registry.file path with ⟨registry, _ | file⟩ <;> rw [advance, hfile]
    · exact haside rfl rfl
    · exact haside rfl rfl
  | found before file =>
    rw [advance]
    split
    · exact haside rfl rfl
    · exact (agrees_symbolsAgainst e before path trigger file).unsearched
  | bound before file symbols fromCache => exact ⟨rfl, e.index.publishes_upsert _ _ _⟩
  | missing before => exact ⟨rfl, e.index.publishes_remove path⟩
  | dropped before removed =>
    have hagrees := agrees_removeRecord e path
    exact haside hagrees.search hagrees.index
  | published before file outcome fromCache => exact haside rfl rfl
  | recorded before file outcome fromCache => exact haside rfl rfl
  | evicted before removed => exact haside rfl rfl
  | judged a => exact haside rfl rfl
  | released a promised => exact haside rfl rfl
  | done a => exact haside rfl rfl

theorem search_orderBatch (e : Engine) (paths : List Path) :
    (e.orderBatch paths).1.search = e.search :=
  orderBatch_keeps (·.search) (fun e path => (agrees_loadRecord e path).search) (fun _ _ => rfl)
    e paths

end Engine

namespace System

open Engine (Unsearched)

theorem unsearched_step {s s' : System} (hstep : Step s s') : s.engine.Unsearched s'.engine := by
  cases hstep with
  | disk e active client disk => exact ⟨rfl, .inl rfl⟩
  | change e active client call registry hclient hcall => exact ⟨rfl, .inl rfl⟩
  | adopt e active project =>
    obtain ⟨hagrees, -⟩ := e.adopt_spec project
    exact ⟨hagrees.search, .inl hagrees.index⟩
  | keep e active project => exact ⟨rfl, .inl rfl⟩
  | collect e active => exact ⟨rfl, .inl rfl⟩
  | order e active paths trigger =>
    exact ⟨e.search_orderBatch paths, .inl (e.reads_orderBatch paths).index⟩
  | enqueue e active order promises trigger => exact ⟨rfl, .inl rfl⟩
  | start e active client left right path trigger hin => exact ⟨rfl, .inl rfl⟩
  | advance e left right client job hstage => exact e.unsearched_advance _ _ _
  | finish e left right client path trigger a => exact ⟨rfl, .inl rfl⟩

/-- What can happen next, when `snapshots` have been there to be looked at: the parties go on, a
load gives up on a root, somebody waits for the queue, a file is put into the index or dropped from
it by anyone, or a search is made. -/
inductive Moment (snapshots : List Snapshot) : System → System → Prop
  | step {s s' : System} (hstep : Step s s') : Moment snapshots s s'
  | abandon (e : Engine) (active : List Job) :
    Moment snapshots ⟨e, active, .changed⟩ ⟨e, active, .free⟩
  | await (e : Engine) (active : List Job) (client : Client) (callback : Nat) :
    Moment snapshots ⟨e, active, client⟩ ⟨e.runWhenSmart callback, active, client⟩
  | upsert (e : Engine) (active : List Job) (client : Client) (path : Path) (print : Fingerprint)
    (symbols : FileSymbols) :
    Moment snapshots ⟨e, active, client⟩
      ⟨{ e with index := (e.index.upsert path print symbols).1 }, active, client⟩
  | remove (e : Engine) (active : List Job) (client : Client) (path : Path) :
    Moment snapshots ⟨e, active, client⟩
      ⟨{ e with index := (e.index.remove path).1 }, active, client⟩
  | search (e : Engine) (active : List Job) (client : Client) (s : Snapshot)
    (hs : s ∈ snapshots) (query : String) (limit : Nat) :
    Moment snapshots ⟨e, active, client⟩ ⟨(e.searchIn s query limit).1, active, client⟩

/-- A system and the snapshots of its index that came before. The index may also be emptied. -/
inductive Watched (config : EngineConfig) (world : World) : System → List Snapshot → Prop
  | start : Watched config world (start config world) []
  | moment {s s' : System} {old : List Snapshot} (h : Watched config world s old)
    (hmoment : Moment (s.engine.index :: old) s s') :
    Watched config world s' (s.engine.index :: old)
  | clear {e : Engine} {active : List Job} {client : Client} {old : List Snapshot}
    (h : Watched config world ⟨e, active, client⟩ old) :
    Watched config world ⟨{ e with index := e.index.clear }, active, client⟩ (e.index :: old)

variable {config : EngineConfig} {world : World} {s s' : System} {snapshots old : List Snapshot}

theorem publishes_of_moment (h : Moment snapshots s s') :
    s.engine.index.Publishes s'.engine.index := by
  cases h with
  | step hstep => exact (unsearched_step hstep).index
  | abandon e active => exact .inl rfl
  | await e active client callback => exact .inl rfl
  | upsert e active client path print symbols => exact e.index.publishes_upsert path print symbols
  | remove e active client path => exact e.index.publishes_remove path
  | search e active client s hs query limit => exact .inl rfl

theorem faithful_moment (h : s.engine.Faithful old)
    (hmoment : Moment (s.engine.index :: old) s s') :
    s'.engine.Faithful (s.engine.index :: old) := by
  refine h.later (publishes_of_moment hmoment).later fun m hm => ?_
  cases hmoment with
  | step hstep => exact h.built m ((unsearched_step hstep).search.symm.trans hm)
  | abandon e active => exact h.built m hm
  | await e active client callback => exact h.built m hm
  | upsert e active client path print symbols => exact h.built m hm
  | remove e active client path => exact h.built m hm
  | search e active client s hs query limit =>
    exact ⟨s, hs, (Option.some.inj hm).symm.trans (h.searchFor_eq hs)⟩

theorem Watched.faithful (h : Watched config world s old) : s.engine.Faithful old := by
  induction h with
  | start =>
    refine ⟨List.pairwise_singleton _ _, fun m hm => ?_⟩
    simp [System.start, Engine.ofConfig] at hm
  | moment _ hmoment ih => exact faithful_moment ih hmoment
  | clear _ ih => exact ih.later (.inr (Nat.lt_succ_self _)) ih.built

/-- Whatever the search index at hand was built from, a search answers as one that is built from
the index there is, or from the index that was there when the search began. The generation counts
the changes of the files one by one and nothing else, so it tells snapshots apart. Emptying an index
with files is such a change too. -/
theorem search_never_stale (h : Watched config world s old) :
    (∀ query limit, (s.engine.searchSymbols query limit).2 =
      ((SearchIndex.build s.engine.index).search query limit).results) ∧
    (∀ t ∈ s.engine.index :: old, ∀ query limit, (s.engine.searchIn t query limit).2 =
      ((SearchIndex.build t).search query limit).results) ∧
    (∀ t ∈ s.engine.index :: old, ∀ u ∈ s.engine.index :: old,
      t.generation = u.generation → t = u) ∧
    (∀ s', Moment (s.engine.index :: old) s s' → s.engine.index.Publishes s'.engine.index) ∧
    (s.engine.index.files ≠ ∅ → s.engine.index.Publishes s.engine.index.clear) := by
  have hfaithful := h.faithful
  have hanswer (t : Snapshot) (ht : t ∈ s.engine.index :: old) (query : String) (limit : Nat) :
      (s.engine.searchIn t query limit).2 =
        ((SearchIndex.build t).search query limit).results := by
    rw [Engine.searchIn, hfaithful.searchFor_eq ht]
  refine ⟨fun query limit => ?_, hanswer, fun t ht u hu heq => ?_, fun s' => ?_,
    fun hfiles => ?_⟩
  · rw [Engine.searchSymbols_eq]
    exact hanswer _ List.mem_cons_self query limit
  · exact hfaithful.eq_of_generation_eq ht hu heq
  · exact publishes_of_moment
  · exact .inr ⟨fun hsame => hfiles hsame.symm, rfl⟩

/-- An engine that has searched the empty index before its first file is indexed. -/
def searchedEarly : Engine :=
  let e := ((Engine.ofConfig {} {}).searchSymbols "A" 1).1
  { e with index := (e.index.upsert ⟨"/A.java"⟩ ⟨"1"⟩
      { symbols := [⟨"A", "A", .type, some .classType, ⟨"/A.java"⟩, default, default, "class A",
        none, 0⟩] }).1 }

theorem search_never_stale_searchedEarly :
    Watched {} {} ⟨searchedEarly, [], .free⟩ [{}, {}] ∧
      searchedEarly.search.map (·.generation) = some 0 ∧ searchedEarly.index.generation = 1 ∧
      (searchedEarly.searchSymbols "A" 1).2.map (·.symbol.fqn) = ["A"] := by
  have hwatched : Watched {} {} ⟨searchedEarly, [], .free⟩ [{}, {}] :=
    .moment (.moment .start (.search _ [] .free {} List.mem_cons_self "A" 1))
      (.upsert _ [] .free _ _ _)
  refine ⟨hwatched, rfl, by decide +kernel, ?_⟩
  rw [(search_never_stale hwatched).1]
  decide +kernel

end System

end JavaAtlas
