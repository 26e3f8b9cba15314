import JavaAtlas.Proofs.Engine.RebindAtRest
import JavaAtlas.Proofs.Engine.WarmRecords

/-!
# States that binding a file anew leaves alone

A file is steady at rest if it is bound as among all files. That is so for every file once all have
been bound anew twice, and right after a load of a project whose files can be bound in any order,
with records that do not deceive. Main statement: in such states, and in any other one just where the
file and those it misled are steady, binding a file anew leaves index and generation alone.
-/

namespace JavaAtlas

set_option autoImplicit false

open Std (TransCmp OrientedCmp ReflCmp)

namespace Engine

variable {base e : Engine} {files : List (Path × String)} {f : Path × String}
  {records : Path × String → FileSymbols → Prop}

theorem AtRest.indexed_of_text? (h : e.AtRest) {p : Path} {text : String}
    (htext : e.registry.text? p = some text) :
    ∃ x, e.index.file? p = some x ∧ x.fingerprint = .ofText text := by
  obtain ⟨known, hknown, rfl⟩ := Option.map_eq_some_iff.mp htext
  obtain ⟨removed, hlanded, -⟩ := h.sane.invariant.settled h.idle p
  obtain ⟨-, hprint, -⟩ := (landed_of_known? (Registry.known?_of_some hknown) removed).mp hlanded
  exact Option.map_eq_some_iff.mp hprint

namespace Converges

/-- At rest all files are indexed, so a file that is bound as among all of them is steady. -/
theorem steady (h : Converges base files records e) (hidle : e.isIdle = true) (hf : f ∈ files)
    (hnone : ∀ symbols, records f symbols → ¬ base.Deceives files f symbols) :
    e.steady f.1 = true := by
  have hindexed : e.indexedOf files = files := by
    rw [indexedOf, List.filter_eq_self]
    intro g hg
    obtain ⟨x, hx, -⟩ := h.at_rest hidle hg
    rw [hx]
    rfl
  obtain ⟨x, hx, hends⟩ := h.at_rest hidle hf
  have hright : x.symbols = base.boundAmong files f :=
    hends.resolve_right fun hdeceives => hnone _ hdeceives.1 hdeceives.2
  have htext : e.registry.text? f.1 = some f.2 := by
    rw [Registry.text?_eq_content?, h.text f hf]
    rfl
  obtain ⟨y, hy, hprint⟩ := AtRest.indexed_of_text? ⟨h.sane, hidle⟩ htext
  obtain rfl := Option.some.inj (hx.symm.trans hy)
  rw [Engine.steady, h.text f hf]
  simp only [h.symbolsFor_eq hf, h.freshSymbols_eq, hindexed]
  rw [Snapshot.holds, hx, Option.any_some, hprint, hright]
  simp only [BEq.rfl, Bool.and_self]

theorem steady_of_mem_misled (h : Converges base files records e) (hidle : e.isIdle = true)
    (hnone : ∀ f ∈ files, ∀ symbols, records f symbols → ¬ base.Deceives files f symbols)
    {p q : Path} (hq : q ∈ e.misled p) : e.steady q = true := by
  obtain ⟨x, hx, rfl⟩ := mem_disappointed h.exact (List.mem_filter.mp hq).1
  obtain ⟨f, hf, hpath⟩ := List.mem_map.mp (h.within.indexed x hx)
  rw [← hpath]
  exact h.steady hidle hf (hnone f hf)

end Converges

/-- When a file is bound anew at rest, the queue is worked off in the end. The index and its
generation are then as they were exactly if the file is steady and so is every file it misled. So it
is for any file after all files were bound anew twice, and for any file of a project that was just
loaded, if its files can be bound in any order and no record deceives. -/
theorem unchanged_iff_steady {config : EngineConfig} {world : World} {e : Engine}
    (hrun : System.Run (System.start config world) ⟨e, [], .free⟩) (hidle : e.isIdle = true)
    (p : Path) :
    (∃ n, ((e.schedule [p] .dependency).run n).isIdle = true) ∧
      (∀ n, ((e.schedule [p] .dependency).run n).isIdle = true →
        (((e.schedule [p] .dependency).run n).index = e.index ↔
            e.steady p = true ∧ ∀ q ∈ e.misled p, e.steady q = true) ∧
          (((e.schedule [p] .dependency).run n).index.generation = e.index.generation ↔
            e.steady p = true ∧ ∀ q ∈ e.misled p, e.steady q = true)) ∧
      (∀ m n, (e.rebindAll.run m).isIdle = true →
        ((e.rebindAll.run m).rebindAll.run n).isIdle = true →
        ∀ k, ((((e.rebindAll.run m).rebindAll.run n).schedule [p] .dependency).run k).isIdle = true →
          ((((e.rebindAll.run m).rebindAll.run n).schedule [p] .dependency).run k).index =
            ((e.rebindAll.run m).rebindAll.run n).index) ∧
      ∀ loaded project m, load config world project = (loaded, none) → e = loaded.run m →
        loaded.Orderly loaded.registry.texts →
        (∀ f ∈ loaded.registry.texts, ∀ symbols, world.OnRecord f symbols →
          symbols.SameDeclarations (loaded.bareEntry f).symbols ∧
            ¬ loaded.Deceives loaded.registry.texts f symbols) →
        p ∈ loaded.registry.texts.map (·.1) →
        ∀ n, ((e.schedule [p] .dependency).run n).isIdle = true →
          ((e.schedule [p] .dependency).run n).index = e.index := by
  have hrest : e.AtRest := ⟨System.sane_of_run hrun, hidle⟩
  refine ⟨(hrest.sane.schedule [p] .dependency).exists_idle, fun n hn => hrest.unchanged_iff p hn,
    fun m n hm hn k hk => ?_, fun loaded project m hload he hproject hrecords hp n hn => ?_⟩
  · have hsteady := hrest.steady_of_rebindAll_twice hm hn
    exact (((hrest.rebindAll hm).rebindAll hn).unchanged_iff p hk).1.mpr
      ⟨hsteady p, fun q _ => hsteady q⟩
  · have hconverges := (converges_warm hload hproject fun f hf symbols hrecord =>
      (hrecords f hf symbols hrecord).1).run hproject m
    rw [← he] at hconverges
    have hnone (f : Path × String) (hf : f ∈ loaded.registry.texts) (symbols : FileSymbols)
        (hrecord : world.OnRecord f symbols) := (hrecords f hf symbols hrecord).2
    obtain ⟨f, hf, rfl⟩ := List.mem_map.mp hp
    exact (hrest.unchanged_iff f.1 hn).1.mpr ⟨hconverges.steady hidle hf (hnone f hf),
      fun q hq => hconverges.steady_of_mem_misled hidle hnone hq⟩

/-- A file was opened that imports its own package, which nobody has before it is published. -/
def ownImport : Engine :=
  let e := Engine.ofConfig {} {}
  { e with registry := (e.registry.openFile ⟨"/p/A.java"⟩
      "package p; import p.*; class A {}").1 }.drainChanges.1

/-- The own import leaves a state that need not stay as it is; a load leaves one that does. -/
theorem unchanged_iff_steady_ownImport :
    (ownImport.step.isIdle = true ∧
      (∃ n, ((ownImport.step.schedule [⟨"/p/A.java"⟩] .dependency).run n).isIdle = true) ∧
      ∀ n, ((ownImport.step.schedule [⟨"/p/A.java"⟩] .dependency).run n).isIdle = true →
        (((ownImport.step.schedule [⟨"/p/A.java"⟩] .dependency).run n).index =
            ownImport.step.index ↔ ownImport.step.steady ⟨"/p/A.java"⟩ = true ∧
              ∀ q ∈ ownImport.step.misled ⟨"/p/A.java"⟩, ownImport.step.steady q = true)) ∧
    ∃ m, ((load cached (onDisk pair) oneRoot).1.run m).isIdle = true ∧ ∀ p ∈ pair.map (·.1), ∀ n,
      ((((load cached (onDisk pair) oneRoot).1.run m).schedule [p] .dependency).run n).isIdle = true →
        ((((load cached (onDisk pair) oneRoot).1.run m).schedule [p] .dependency).run n).index =
          ((load cached (onDisk pair) oneRoot).1.run m).index := by
  have hopen : (Call.openFile ⟨"/p/A.java"⟩ "package p; import p.*; class A {}").run
      (.ofConfig {} {}) = some ownImport := Call.run_openFile_of_source (by decide +kernel) _ _
  have hopened := System.run_call hopen []
  have hrun := hopened.trans (System.run_step ownImport [] .free)
  have hidle := isIdle_step_of_isAlone (e := ownImport) (by decide +kernel)
    (System.sane_of_run hopened).traced.exact
  obtain ⟨hends, hunchanged⟩ := unchanged_iff_steady hrun hidle ⟨"/p/A.java"⟩
  refine ⟨⟨hidle, hends, fun n hn => (hunchanged.1 n hn).1⟩, ?_⟩
  have hload := load_eq_of_isNone pair_rests.1
  generalize (load cached (onDisk pair) oneRoot).1 = warm at *
  obtain ⟨htexts, hproject, hrecords⟩ := load_pair hload
  have hreload := System.run_reload hload []
  obtain ⟨m, hm⟩ := (System.sane_of_run hreload).exists_idle
  refine ⟨m, hm, fun p hp n hn => ?_⟩
  have hwarm := hreload.trans (System.run_analyses warm [] .free m)
  rw [← htexts] at hp
  exact (unchanged_iff_steady hwarm hm p).2.2.2 warm oneRoot m hload rfl hproject hrecords hp n hn

end Engine

end JavaAtlas
