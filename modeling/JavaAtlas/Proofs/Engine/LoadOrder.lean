import JavaAtlas.Proofs.Completion.Packages
import JavaAtlas.Proofs.Engine.Opening

/-!
# The order in which files are opened

Files are opened one after another, and the queue is worked off after each. In the end the same names
are known whatever the order was. A file has the same symbols in two orders if it is up to date in
both, but it need not be: it is bound without its own declarations in the index, and others are bound
anew for it only if they failed on a name that it brings. If every opening is noticed by all files for
which it matters, then the order makes no difference.
-/

namespace JavaAtlas

set_option autoImplicit false

open Std (TransCmp OrientedCmp ReflCmp)

namespace Engine

/-! ## Openings that are noticed -/

/-- A file as it is indexed without its names being bound. -/
def bareEntry (e : Engine) (f : Path × String) : FileEntry :=
  ⟨f.1, .ofText f.2, Extraction.ofSource (e.parses.parse f.1 f.2 (.ofText f.2))⟩

def declaredBy (e : Engine) (files : List (Path × String)) : Snapshot :=
  (files.map e.bareEntry).foldl Snapshot.insertFile {}

/-- What a file is bound to when these files are known. -/
def boundAmong (e : Engine) (files : List (Path × String)) (f : Path × String) : FileSymbols :=
  { e with index := e.declaredBy files }.freshSymbols f.1 f.2

theorem located_boundAmong (e : Engine) (known : List (Path × String)) (f : Path × String) :
    (e.boundAmong known f).Located f.1 :=
  located_freshSymbols { e with index := e.declaredBy known } f.1 f.2

/-- The file, opened after the others, is bound the same with itself in the index, and so is each of the
others unless it had failed on a name that the file brings. -/
structure Noticed (e : Engine) (files : List (Path × String)) (f : Path × String) : Prop where
  own : e.boundAmong (files ++ [f]) f = e.boundAmong files f
  others : ∀ g ∈ files, e.boundAmong (files ++ [f]) g = e.boundAmong files g ∨
    ∃ name ∈ (e.boundAmong files g).unresolved, name ∈ brings (e.declaredBy files) (e.boundAmong files f)

def AllNoticed (e : Engine) (files : List (Path × String)) : Prop :=
  ∀ before f, (before ++ [f]).IsPrefix files → e.Noticed before f

structure Openable (files : List (Path × String)) : Prop where
  source : ∀ f ∈ files, f.1.extension? = some sourceExtension
  normal : ∀ f ∈ files, f.1.normalize = f.1
  distinct : files.Pairwise fun a b => compare a.1 b.1 ≠ .eq

theorem Openable.perm {files files' : List (Path × String)} (h : Openable files)
    (hperm : files'.Perm files) : Openable files' := by
  constructor
  · intro f hf
    exact h.source f (hperm.mem_iff.mp hf)
  · intro f hf
    exact h.normal f (hperm.mem_iff.mp hf)
  · apply (hperm.pairwise_iff _).mpr h.distinct
    intro a b hne hc
    exact hne (OrientedCmp.eq_symm hc)

theorem Openable.init {files : List (Path × String)} {f : Path × String}
    (h : Openable (files ++ [f])) : Openable files ∧ ∀ g ∈ files, compare g.1 f.1 ≠ .eq := by
  obtain ⟨hbefore, -, hlast⟩ := List.pairwise_append.mp h.distinct
  refine ⟨⟨?_, ?_, hbefore⟩, ?_⟩
  · intro g hg
    exact h.source g (List.mem_append_left _ hg)
  · intro g hg
    exact h.normal g (List.mem_append_left _ hg)
  · intro g hg
    exact hlast g hg f List.mem_cons_self

/-- Files are opened one after another, and the queue is worked off after each. -/
inductive Opened (e : Engine) : List (Path × String) → Engine → Prop
  | start : Opened e [] e
  | next {files : List (Path × String)} {e₁ e₂ : Engine} {p : Path} {text : String} {version n : Nat}
    (before : Opened e files e₁) (hopen : e₁.openFile p text = (e₂, .ok version))
    (hidle : (e₂.run n).isIdle = true) : Opened e (files ++ [(p, text)]) (e₂.run n)

/-! ## What is known -/

section Declared

variable {e e' : Engine} {files : List (Path × String)}

theorem declaredBy_spec (e : Engine)
    (hdistinct : files.Pairwise fun a b => compare a.1 b.1 ≠ .eq) :
    (e.declaredBy files).Exact ∧
      ∀ x, x ∈ (e.declaredBy files).entries ↔ ∃ f ∈ files, e.bareEntry f = x := by
  have hdiff : (files.map e.bareEntry).Pairwise fun a b => compare a.path b.path ≠ .eq := by
    rw [List.pairwise_map]
    exact hdistinct
  obtain ⟨hexact, hmem⟩ :=
    (Snapshot.exact_of_empty 0).foldl_insertFile (files.map e.bareEntry) (fun _ _ => rfl) hdiff
  refine ⟨hexact, ?_⟩
  intro x
  apply (hmem x).trans
  rw [List.mem_map]
  apply or_iff_right
  intro hx
  simp [SortedMap.values, EmptyCollection.emptyCollection] at hx

/-- A file declares the same, its names bound or not. -/
theorem sameDeclarations_ofAttributed (u : SourceUnit) (ctx : TypeLookup) :
    (Extraction.ofAttributed (u.bindTypes ctx)).SameDeclarations (Extraction.ofSource u) := ⟨rfl, rfl⟩

theorem sameDeclarations_freshSymbols (e : Engine) (f : Path × String) :
    (e.freshSymbols f.1 f.2).SameDeclarations (e.bareEntry f).symbols := by
  simp only [freshSymbols, bareEntry]
  split
  · exact ⟨rfl, rfl⟩
  · exact sameDeclarations_ofAttributed _ _

theorem bareEntry_congr (hrules : SameRules e e') (f : Path × String) :
    e'.bareEntry f = e.bareEntry f := by
  rw [bareEntry, bareEntry, hrules.parse]

theorem boundAmong_congr (hrules : SameRules e e') (known : List (Path × String)) (f : Path × String) :
    e'.boundAmong known f = e.boundAmong known f := by
  have hdeclared : e'.declaredBy known = e.declaredBy known := by
    rw [declaredBy, declaredBy, funext (bareEntry_congr hrules)]
  have hsame : SameRules { e with index := e.declaredBy known }
      { e' with index := e.declaredBy known } :=
    ⟨hrules.indexing, hrules.classpath, hrules.parse⟩
  rw [boundAmong, hdeclared]
  exact freshSymbols_congr hsame rfl f.1 f.2

/-- Where these files are indexed as their texts declare, names mean what the texts declare. -/
theorem lookup_eq_declaredBy {index : Snapshot} (hindex : index.Exact)
    (hdistinct : files.Pairwise fun a b => compare a.1 b.1 ≠ .eq)
    (hforth : ∀ x ∈ index.entries, ∃ f ∈ files, x.symbols.Alike (e.bareEntry f).symbols)
    (hback : ∀ f ∈ files, ∃ x ∈ index.entries, x.symbols.Alike (e.bareEntry f).symbols) :
    index.lookup = (e.declaredBy files).lookup := by
  obtain ⟨hexact, hmem⟩ := e.declaredBy_spec hdistinct
  apply Snapshot.lookup_eq_of_alike hindex hexact
  · intro x hx
    obtain ⟨f, hf, halike⟩ := hforth x hx
    exact ⟨e.bareEntry f, (hmem _).mpr ⟨f, hf, rfl⟩, halike⟩
  · intro y hy
    obtain ⟨f, hf, rfl⟩ := (hmem y).mp hy
    obtain ⟨x, hx, halike⟩ := hback f hf
    exact ⟨x, hx, halike.symm⟩

theorem boundAmong_eq (hrules : SameRules e e') (hlookup : e'.index.lookup = (e.declaredBy files).lookup)
    (f : Path × String) : e.boundAmong files f = e'.freshSymbols f.1 f.2 := by
  have hback : SameRules e' { e with index := e.declaredBy files } :=
    ⟨hrules.indexing.symm, hrules.classpath.symm, hrules.parse.symm⟩
  exact freshSymbols_congr hback hlookup.symm f.1 f.2

/-- Names mean what the texts of the opened files declare. -/
theorem Loaded.lookup_eq (h : e'.Loaded files) (hrules : SameRules e e') :
    e'.index.lookup = (e.declaredBy files).lookup := by
  have hshown {f : Path × String} (hf : f ∈ files) : ∃ x, e'.index.file? f.1 = some x ∧
      x.symbols.Alike (e.bareEntry f).symbols := by
    obtain ⟨x, hx, -, halike⟩ := h.alike_of_anchored h.exact hf (h.anchored f.1)
    refine ⟨x, hx, ?_⟩
    rw [← bareEntry_congr hrules]
    exact halike.trans (e'.sameDeclarations_freshSymbols f).alike
  apply lookup_eq_declaredBy h.exact h.distinct
  · intro x hx
    have hfile := h.exact.file?_of_mem hx
    obtain ⟨f, hf, hpath, -⟩ := h.exists_of_indexed h.exact hfile
    obtain ⟨y, hy, halike⟩ := hshown hf
    rw [hpath] at hfile
    obtain rfl := Option.some.inj (hfile.symm.trans hy)
    exact ⟨f, hf, halike⟩
  · intro f hf
    obtain ⟨x, hx, halike⟩ := hshown hf
    exact ⟨x, (h.exact.file?_eq_some_iff.mp hx).1, halike⟩

theorem Loaded.boundAmong_eq (h : e'.Loaded files) (hrules : SameRules e e') (f : Path × String) :
    e.boundAmong files f = e'.freshSymbols f.1 f.2 :=
  Engine.boundAmong_eq hrules (h.lookup_eq hrules) f

theorem Loaded.brings_eq (h : e'.Loaded files) (hrules : SameRules e e') (symbols : FileSymbols) :
    brings (e.declaredBy files) symbols = brings e'.index symbols := by
  have hpackages : (e.declaredBy files).hasPackage = e'.index.hasPackage :=
    congrArg (·.hasPackage) (h.lookup_eq hrules).symm
  rw [brings, brings, hpackages]

end Declared

/-! ## Opening all files -/

section Opened

variable {e₀ e e' : Engine} {files files' : List (Path × String)}

theorem opens_of_openFile (h : e.Loaded files) {p : Path} {text : String} {version : Nat}
    (hnormal : p.normalize = p) (hopen : e.openFile p text = (e', .ok version)) :
    Opens e e' p text := by
  have hopens := h.toAtRest.openFile h.store hopen
  rwa [hnormal] at hopens

theorem SameRules.opened {p : Path} {text : String} (h : SameRules e₀ e) (hloaded : e.Loaded files)
    (hopen : Opens e e' p text) (hnew : ∀ f ∈ files, compare f.1 p ≠ .eq) (n : Nat) :
    SameRules e₀ (e'.run n) := by
  have hindex : e'.index.Exact := by
    rw [hopen.index]
    exact hloaded.exact
  have hplain := hopen.plain hloaded.toPlain hnew
  have hrun := (run_spec hplain.within hindex n).1
  apply (h.trans _).trans hrun.rules
  exact ⟨by rw [hopen.config], hopen.classpath, by rw [hopen.parses]⟩

theorem loaded_of_opened (h₀ : e₀.Loaded []) (hfiles : Openable files) (h : Opened e₀ files e) :
    e.Loaded files ∧ SameRules e₀ e := by
  induction h with
  | start => exact ⟨h₀, rfl, rfl, rfl⟩
  | next before hopen hidle ih =>
    obtain ⟨hinit, hnew⟩ := hfiles.init
    obtain ⟨hloaded, hrules⟩ := ih hinit
    have hnormal := hfiles.normal _ (List.mem_append_right _ List.mem_cons_self)
    have hopens := opens_of_openFile hloaded hnormal hopen
    exact ⟨hloaded.opened hopens hnew hidle, hrules.opened hloaded hopens hnew _⟩

theorem exists_opened (h₀ : e₀.Loaded []) (hfiles : Openable files) : ∃ e, Opened e₀ files e := by
  induction files using List.reverseRecOn with
  | nil => exact ⟨e₀, .start⟩
  | append_singleton files f ih =>
    obtain ⟨hinit, -⟩ := hfiles.init
    obtain ⟨e, hopened⟩ := ih hinit
    have hloaded := (loaded_of_opened h₀ hinit hopened).1
    have hf : f ∈ files ++ [f] := List.mem_append_right _ List.mem_cons_self
    have hopen : e.openFile f.1 f.2 =
        ({ e with registry := (e.registry.openFile f.1 f.2).1 }.drainChanges.1,
          .ok (e.registry.openFile f.1 f.2).2) := by
      rw [openFile, if_pos (hfiles.source f hf)]
    have hopens := opens_of_openFile hloaded (hfiles.normal f hf) hopen
    obtain ⟨n, hidle⟩ := hopens.sane.exists_idle
    exact ⟨_, .next hopened hopen hidle⟩

theorem showsFresh_of_noticed (h₀ : e₀.Loaded []) (hfiles : Openable files) (h : Opened e₀ files e)
    (hnoticed : e₀.AllNoticed files) : ∀ f ∈ files, e.ShowsFresh f := by
  induction h with
  | start => simp
  | @next files e₁ e₂ p text version n before hopen hidle ih =>
    obtain ⟨hinit, hnew⟩ := hfiles.init
    obtain ⟨hloaded, hrules⟩ := loaded_of_opened h₀ hinit before
    have hnormal := hfiles.normal _ (List.mem_append_right _ List.mem_cons_self)
    have hopens := opens_of_openFile hloaded hnormal hopen
    have hafter := hloaded.opened hopens hnew hidle
    have hrules' := hrules.opened hloaded hopens hnew n
    have hlast := hnoticed files (p, text) List.prefix_rfl
    have hshown := ih hinit fun before f hpart =>
      hnoticed before f (hpart.trans (List.prefix_append _ _))
    intro f hf
    rcases List.mem_append.mp hf with hf | hf
    · apply hloaded.showsFresh_old hopens hnew hidle hf (hshown f hf)
      have hothers := hlast.others f hf
      rwa [hafter.boundAmong_eq hrules', hloaded.boundAmong_eq hrules, hloaded.boundAmong_eq hrules,
        hloaded.brings_eq hrules] at hothers
    · obtain rfl := List.mem_singleton.mp hf
      apply hloaded.showsFresh_new hopens hnew hidle
      have hown := hlast.own
      rwa [hafter.boundAmong_eq hrules', hloaded.boundAmong_eq hrules] at hown

end Opened

/-! ## Two orders -/

section TwoOrders

variable {e₀ e e' : Engine} {files files' : List (Path × String)}

theorem Loaded.alike (h : e.Loaded files) (h' : e'.Loaded files') (hperm : files'.Perm files)
    (hrules : SameRules e e') : Alike e e' := by
  refine ⟨hrules.indexing, hrules.classpath, hrules.parse, ?_⟩
  intro q
  apply Option.ext
  intro t
  rw [h.text?_eq_some_iff, h'.text?_eq_some_iff]
  simp only [hperm.mem_iff]

theorem Loaded.lookup_eq_of_perm (h : e.Loaded files) (h' : e'.Loaded files')
    (hperm : files'.Perm files) (hrules : SameRules e e') : e'.index.lookup = e.index.lookup := by
  have hself : SameRules e e := ⟨rfl, rfl, rfl⟩
  obtain ⟨hexact, hmem⟩ := e.declaredBy_spec h.distinct
  obtain ⟨hexact', hmem'⟩ := e.declaredBy_spec h'.distinct
  have hsame : ∀ x, x ∈ (e.declaredBy files').entries ↔ x ∈ (e.declaredBy files).entries := by
    intro x
    rw [hmem, hmem']
    simp only [hperm.mem_iff]
  rw [h.lookup_eq hself, h'.lookup_eq hrules]
  apply Snapshot.lookup_eq_of_alike hexact' hexact
  · intro x hx
    exact ⟨x, (hsame x).mp hx, .refl _⟩
  · intro x hx
    exact ⟨x, (hsame x).mpr hx, .refl _⟩

/-- Where one order leaves a file up to date, another ends with the same symbols for it exactly if it
leaves the file up to date too. -/
theorem Loaded.symbols_eq_iff (h : e.Loaded files) (h' : e'.Loaded files')
    (hperm : files'.Perm files) (hrules : SameRules e e') {q : Path} (hcurrent : e'.Current q) :
    (e.index.file? q).map (·.symbols) = (e'.index.file? q).map (·.symbols) ↔ e.Current q := by
  have halike := h.alike h' hperm hrules
  obtain ⟨text, y, htext, hy, hsymbols⟩ := hcurrent
  have hindexed := isSome_file?_of_isIdle h.sane.invariant h.idle q
  rw [← halike.text, htext, Option.isSome_some, Option.isSome_iff_exists] at hindexed
  obtain ⟨x, hx⟩ := hindexed
  obtain ⟨f, hf, hpath, hc⟩ := h.exists_of_indexed h.exact hx
  obtain ⟨g, hg, hpath', hc'⟩ := h'.exists_of_indexed h'.exact hy
  -- both orders have indexed the file under the path it was opened with
  have hfg : f = g :=
    h.eq_of_compare hf (hperm.mem_iff.mp hg) (TransCmp.eq_trans (OrientedCmp.eq_symm hc) hc')
  rw [hx, hy, Option.map_some, Option.map_some, Option.some_inj]
  apply symbols_eq_iff_current halike (h.lookup_eq_of_perm h' hperm hrules) hx hy
  · rw [hpath, hpath', hfg]
  · exact ⟨text, y, htext, hy, hsymbols⟩

theorem Loaded.current_of_showsFresh (h : e.Loaded files) {f : Path × String} (hf : f ∈ files)
    {q : Path} (hc : compare q f.1 = .eq) (hfresh : e.ShowsFresh f) : e.Current q := by
  obtain ⟨x, hx, hpath, hsymbols⟩ := hfresh
  refine ⟨f.2, x, (h.text?_eq_some_iff q f.2).mpr ⟨f, hf, hc, rfl⟩, ?_, ?_⟩
  · rw [Snapshot.file?_congr _ hc]
    exact hx
  · rw [hpath]
    exact hsymbols

end TwoOrders

/-! ## Starting without files -/

theorem parses_drainChanges (e : Engine) : e.drainChanges.1.parses = e.parses := by
  rcases hcollect : e.registry.collect 0 with ⟨registry, events⟩
  simp only [drainChanges, hcollect]
  split
  · rfl
  · rw [schedule_eq]
    exact parses_orderBatch _ _

theorem blank_of_load {config : EngineConfig} {world : World} {project : Project} {e : Engine}
    (hload : load config world project = (e, none)) :
    e.index.entries = [] ∧ ∀ q print, e.parses.reusable? q print = none := by
  obtain ⟨registry, rfl, -⟩ := load_spec hload
  obtain ⟨hagrees, hparses, -⟩ := (ofConfig config world).adopt_spec project
  generalize (ofConfig config world).adopt project = adopted at *
  have hentries : adopted.index.entries = [] := by
    rw [hagrees.index]
    rfl
  obtain ⟨-, -, hindex⟩ := drainChanges_spec (e := { adopted with registry := registry })
    (congrArg (·.queue) hagrees.queue) hagrees.inFlight hentries
  refine ⟨(congrArg (·.entries) hindex).trans hentries, ?_⟩
  intro q print
  simp only [parses_drainChanges, hparses, ParseCache.setLanguageLevel]
  split <;> rfl

theorem loaded_of_load {config : EngineConfig} {world : World} {project : Project} {e : Engine}
    (hload : load config world project = (e, none)) (hstore : e.store = none)
    (hidle : e.isIdle = true) : e.Loaded [] := by
  have hrest : e.AtRest := ⟨(System.sane_start config world).run (System.run_reload hload []), hidle⟩
  obtain ⟨hentries, hblank⟩ := blank_of_load hload
  obtain ⟨hqueue, hin⟩ := hrest.empty
  have hplain : e.Plain [] := by
    refine ⟨⟨.nil, ⟨?_, ?_, ?_⟩, ?_, ?_, ?_⟩, hstore⟩
    · simp [Queue.Within, hqueue]
    · simp [hin]
    · simp [hentries]
    · simp
    · simp [hblank]
    · simp [hentries]
  refine ⟨hrest, hplain, ?_⟩
  intro q
  have hfile := hplain.not_indexed hrest.sane.traced.exact (p := q) (by simp)
  have hindexed := isSome_file?_of_isIdle hrest.sane.invariant hidle q
  rw [hfile, Option.isSome_none, eq_comm, Option.isSome_eq_false_iff, Option.isNone_iff_eq_none]
    at hindexed
  rw [anchored, hrest.sane.invariant.sound.content?_eq, hindexed, hfile]
  rfl

/-- Without a store, and after a load that found no files, files with different normal source paths can
be opened one by one in any order, working off the queue each time. Two orders end with the same types
and packages known. Where one of them leaves a file up to date, they have the same symbols for it
exactly if the other does so too; and if in both every opening is noticed, they have the same symbols
for every path. -/
theorem opened_in_any_order {config : EngineConfig} {world : World} {project : Project} {e₀ : Engine}
    (hload : load config world project = (e₀, none)) (hstore : e₀.store = none)
    (hidle : e₀.isIdle = true) {files files' : List (Path × String)} (hfiles : Openable files)
    (hperm : files'.Perm files) :
    (∃ e, Opened e₀ files e) ∧ (∃ e', Opened e₀ files' e') ∧
    ∀ e e', Opened e₀ files e → Opened e₀ files' e' →
      e'.index.lookup = e.index.lookup ∧
      (∀ q, e'.Current q →
        ((e.index.file? q).map (·.symbols) = (e'.index.file? q).map (·.symbols) ↔ e.Current q)) ∧
      (e₀.AllNoticed files → e₀.AllNoticed files' →
        ∀ q, (e.index.file? q).map (·.symbols) = (e'.index.file? q).map (·.symbols)) := by
  have h₀ := loaded_of_load hload hstore hidle
  have hfiles' := hfiles.perm hperm
  refine ⟨exists_opened h₀ hfiles, exists_opened h₀ hfiles', ?_⟩
  intro e e' hopened hopened'
  obtain ⟨h, hrules⟩ := loaded_of_opened h₀ hfiles hopened
  obtain ⟨h', hrules'⟩ := loaded_of_opened h₀ hfiles' hopened'
  have hboth := hrules.symm.trans hrules'
  refine ⟨h.lookup_eq_of_perm h' hperm hboth, fun q => h.symbols_eq_iff h' hperm hboth, ?_⟩
  intro hnoticed hnoticed' q
  have hfresh := showsFresh_of_noticed h₀ hfiles hopened hnoticed
  have hfresh' := showsFresh_of_noticed h₀ hfiles' hopened' hnoticed'
  by_cases hq : ∃ f ∈ files, compare q f.1 = .eq
  · obtain ⟨f, hf, hc⟩ := hq
    have hcurrent := h.current_of_showsFresh hf hc (hfresh f hf)
    have hf' := hperm.mem_iff.mpr hf
    have hcurrent' := h'.current_of_showsFresh hf' hc (hfresh' f hf')
    exact (h.symbols_eq_iff h' hperm hboth hcurrent').mpr hcurrent
  · have hnew {f : Path × String} (hf : f ∈ files) : compare f.1 q ≠ .eq := fun hc =>
      hq ⟨f, hf, OrientedCmp.eq_symm hc⟩
    rw [h.not_indexed h.exact fun f hf => hnew hf,
      h'.not_indexed h'.exact fun f hf => hnew (hperm.mem_iff.mp hf)]

theorem allNoticed_nil (e : Engine) : e.AllNoticed [] := by
  intro before f hpart
  simp at hpart

theorem AllNoticed.concat {e : Engine} {files : List (Path × String)} {f : Path × String}
    (h : e.AllNoticed files) (hf : e.Noticed files f) : e.AllNoticed (files ++ [f]) := by
  intro before g hpart
  rcases List.prefix_concat_iff.mp hpart with heq | hpart
  · obtain ⟨rfl, hsame⟩ := List.append_inj' heq rfl
    obtain rfl := List.singleton_inj.mp hsame
    exact hf
  · exact h before g hpart

/-- Symbols of one file are the same if they compare equal. -/
theorem noticed_of_beq {e : Engine} {files : List (Path × String)} {f : Path × String}
    (hown : (e.boundAmong (files ++ [f]) f == e.boundAmong files f) = true)
    (hothers : ∀ g ∈ files, (e.boundAmong (files ++ [f]) g == e.boundAmong files g) = true ∨
      ∃ name ∈ (e.boundAmong files g).unresolved,
        name ∈ brings (e.declaredBy files) (e.boundAmong files f)) : e.Noticed files f where
  own := (e.located_boundAmong _ f).eq_of_beq (e.located_boundAmong _ f) hown
  others g hg := (hothers g hg).imp_left
    ((e.located_boundAmong _ g).eq_of_beq (e.located_boundAmong _ g))

/-- The openings of both orders, each with the files that are open before. -/
def openings : List (List (Path × String) × (Path × String)) :=
  [([], waiting), ([waiting], awaited), ([], awaited), ([awaited], waiting)]

/-- No file is there to begin with. -/
def bare : Engine := (load {} { parser := Java.terse } {}).1

theorem noticed_pair {before : List (Path × String)} {f : Path × String}
    (h : (before, f) ∈ openings) : bare.Noticed before f := by
  have hall : ∀ opening ∈ openings,
      (bare.boundAmong (opening.1 ++ [opening.2]) opening.2 ==
        bare.boundAmong opening.1 opening.2) = true ∧
      ∀ g ∈ opening.1, (bare.boundAmong (opening.1 ++ [opening.2]) g ==
          bare.boundAmong opening.1 g) = true ∨
        ∃ name ∈ (bare.boundAmong opening.1 g).unresolved,
          name ∈ brings (bare.declaredBy opening.1) (bare.boundAmong opening.1 opening.2) := by
    have hclasspath : bare.classpath = .builtin := rfl
    simp only [boundAmong, freshSymbols, contextOf, hclasspath, ClasspathIndex.lookup_builtin]
    decide +kernel
  exact noticed_of_beq (hall _ h).1 (hall _ h).2

theorem opened_in_any_order_pair :
    Openable pair ∧ pair.reverse.Perm pair ∧ bare.store = none ∧ bare.isIdle = true ∧
    ∃ e e', Opened bare pair e ∧ Opened bare pair.reverse e' ∧ e'.index.lookup = e.index.lookup ∧
      ∀ q, (e.index.file? q).map (·.symbols) = (e'.index.file? q).map (·.symbols) := by
  have hnormal : ∀ f ∈ pair, f.1.normalize.spelling = f.1.spelling := by decide +kernel
  have hfiles : Openable pair :=
    ⟨by decide +kernel, fun f hf => congrArg Path.mk (hnormal f hf), by decide +kernel⟩
  have hperm : pair.reverse.Perm pair := List.reverse_perm pair
  have hload : load {} { parser := Java.terse } {} = (bare, none) := rfl
  have hnoticed : bare.AllNoticed pair :=
    ((allNoticed_nil bare).concat (noticed_pair (by simp [openings]))).concat
      (noticed_pair (by simp [openings]))
  have hnoticed' : bare.AllNoticed pair.reverse :=
    ((allNoticed_nil bare).concat (noticed_pair (by simp [openings]))).concat
      (noticed_pair (by simp [openings]))
  refine ⟨hfiles, hperm, rfl, rfl, ?_⟩
  obtain ⟨⟨e, he⟩, ⟨e', he'⟩, hall⟩ := opened_in_any_order hload rfl rfl hfiles hperm
  obtain ⟨hlookup, -, hsame⟩ := hall e e' he he'
  exact ⟨e, e', he, he', hlookup, hsame hnoticed hnoticed'⟩

end Engine

end JavaAtlas
