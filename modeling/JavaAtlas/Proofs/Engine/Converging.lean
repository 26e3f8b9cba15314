import JavaAtlas.Proofs.Engine.Dangling
import JavaAtlas.Proofs.Engine.Offers

/-!
# Files that come to be bound among all of a project

Of the files of a project some are indexed, and the others are still to be analyzed. A file that is
indexed is bound as among all files, or it is to be bound anew, or it failed on a name that is yet to
come. Symbols taken from a record are of this kind too, except for a record that fails on no name to
come and is bound only to types there are, and yet is not what binding the file among all files gives.
Main statement: at rest every file is bound as among all files or shows such a record.
-/

namespace JavaAtlas

set_option autoImplicit false

open Std (TransCmp OrientedCmp ReflCmp)

namespace Engine

variable {base e e' : Engine} {files : List (Path × String)} {f : Path × String}
  {records : Path × String → FileSymbols → Prop} {symbols : FileSymbols} {a : Analysis}
  {t : Trigger} {rest : List (Path × Trigger)}

/-! ## Records -/

/-- The symbols failed on no name that another file offers and are bound to types there are, and yet
they are not what binding the file among all files gives. -/
structure Deceives (base : Engine) (files : List (Path × String)) (f : Path × String)
    (symbols : FileSymbols) : Prop where
  wrong : symbols ≠ base.boundAmong files f
  heard : ¬ base.Wants files [f] symbols
  bound : ∀ t ∈ symbols.boundTargets, base.DeclaredAmong files t

/-- What may be on record for a file: it was there at first, or it was computed since. -/
structure Trusted (base : Engine) (files : List (Path × String))
    (records : Path × String → FileSymbols → Prop) (f : Path × String) (symbols : FileSymbols) : Prop where
  declares : symbols.SameDeclarations (base.bareEntry f).symbols
  origin : records f symbols ∨ symbols = base.boundAmong files f ∨ base.Wants files [f] symbols

/-- Symbols that a file may be indexed with while `known` files are indexed and it is not asked for. -/
def Lasting (base : Engine) (files : List (Path × String)) (records : Path × String → FileSymbols → Prop)
    (known : List (Path × String)) (f : Path × String) (symbols : FileSymbols) : Prop :=
  symbols = base.boundAmong files f ∨ base.Wants files known symbols ∨
    (records f symbols ∧ base.Deceives files f symbols)

theorem Wants.mono {known known' : List (Path × String)} (h : base.Wants files known symbols)
    (hsubset : ∀ name, base.Offered known' name → base.Offered known name) :
    base.Wants files known' symbols := by
  obtain ⟨name, hname, hoffered, hunknown⟩ := h
  exact ⟨name, hname, hoffered, fun hknown => hunknown (hsubset name hknown)⟩

/-- Files with keys of their own, none bound wrongly for good because another came later. -/
structure Orderly (base : Engine) (files : List (Path × String)) : Prop where
  keys : ∀ f ∈ files, ∀ g ∈ files, pathKey f.1 = pathKey g.1 → f = g
  few : ∀ f ∈ files, (base.bareEntry f).symbols.symbols.length ≤ 4294967296
  mends : base.Mends files

/-- What the next symbols of a file can come from: what is indexed, on record and promised. -/
structure Grounded (base : Engine) (files : List (Path × String))
    (records : Path × String → FileSymbols → Prop) (e : Engine) : Prop extends Portrays base files e where
  counted : e.queue.Counted
  pledged : ∀ t ∈ e.queue.pledged, base.DeclaredAmong files t
  stored : e.store ≠ none → e.world.Every (StoreDirectory.Recorded fun p r => ∀ f ∈ files, p = f.1 →
    r.fingerprint = .ofText f.2 → Trusted base files records f r.payload)

/-- Moreover each file that is indexed is asked for or has symbols that may last. -/
structure Converges (base : Engine) (files : List (Path × String))
    (records : Path × String → FileSymbols → Prop) (e : Engine) : Prop
    extends Grounded base files records e where
  sane : System.Sane ⟨e, [], .free⟩
  progress : ∀ f ∈ files, ∀ x, e.index.file? f.1 = some x →
    e.Due f.1 ∨ Lasting base files records (e.indexedOf files) f x.symbols

/-! ## What is published -/

theorem Hosts.effect_cases {after : Snapshot} (h : e.Hosts files) (hf : f ∈ files)
    (heffect : Effect e f.1 t after a) :
    (after = e.index ∧ t = .content) ∨ ∃ symbols,
      after = (e.index.upsert f.1 (.ofText f.2) symbols).1 ∧
      a.stale = staleAfter f.1 (e.index.upsert f.1 (.ofText f.2) symbols).2 e.index after ∧
      (symbols = e.freshSymbols f.1 f.2 ∨
        ∃ file : SourceFile, file.fingerprint = .ofText f.2 ∧ (e.reading f.1).Recalled f.1 file symbols) := by
  cases heffect with
  | gone hfile =>
    have hcontent := h.text f hf
    rw [content?_of_missing hfile] at hcontent
    simp at hcontent
  | passed file hfile htrigger => exact Or.inl ⟨rfl, htrigger⟩
  | published file hfile symbols fromCache hsymbols after outcome hupsert =>
    have hcontent := (content?_of_found hfile).symm.trans (h.text f hf)
    rw [Option.some_inj, Prod.mk.injEq] at hcontent
    obtain ⟨htext, hprint⟩ := hcontent
    have hcases := (e.reading f.1).symbolsOf_cases f.1 t file
    rw [hsymbols, htext, hprint] at hcases
    rw [hprint] at hupsert
    refine Or.inr ⟨symbols, by rw [hupsert], by rw [hupsert], ?_⟩
    rcases hcases with hfresh | ⟨-, hrecalled⟩
    · exact Or.inl (hfresh.trans (h.symbolsFor_eq hf))
    · exact Or.inr ⟨file, hprint, hrecalled⟩

namespace Grounded

theorem withJobs {p : Path} (h : Grounded base files records e) (hin : e.inFlight = (p, t) :: rest) :
    Grounded base files records (e.withJobs rest) :=
  { h with
    toHosts := h.toHosts.withJobs hin
    rules := ⟨h.rules.indexing, h.rules.classpath, h.rules.parse⟩ }

/-- A record that is taken will do until the names come that it waits for. -/
theorem trusted_of_recalled (h : Grounded base files records e) (hf : f ∈ files) {file : SourceFile}
    (hprint : file.fingerprint = .ofText f.2) (hrecalled : (e.reading f.1).Recalled f.1 file symbols) :
    Trusted base files records f symbols := by
  obtain ⟨print, hhit⟩ := hrecalled.stored
  have hstore : e.store ≠ none := by
    intro hnone
    rw [loadMatching, show (e.reading f.1).store = none from hnone] at hhit
    simp at hhit
  obtain ⟨r, hr, hfound, hpayload⟩ := recorded_of_loadMatching (e := e.reading f.1) (h.stored hstore) hhit
  rw [← hpayload]
  exact hr f hf rfl (hfound.trans hprint)

theorem declaredAmong_of_recalled (h : Grounded base files records e) (hf : f ∈ files)
    {file : SourceFile} (hrecalled : (e.reading f.1).Recalled f.1 file symbols)
    (hdeclares : symbols.SameDeclarations (base.bareEntry f).symbols) {target : String}
    (htarget : target ∈ symbols.boundTargets) : base.DeclaredAmong files target := by
  have hbound := (unboundTarget?_eq_none_iff _ _ _).mp hrecalled.bound target htarget
  rcases hbound with hown | hknown | hpromised
  · rw [hdeclares.types] at hown
    exact Or.inl ⟨f, hf, hown⟩
  · rw [hasType_contextOf, Bool.or_eq_true] at hknown
    rcases hknown with htype | hheld
    · exact h.declaredAmong_of_typeExists htype
    · right
      rw [← h.rules.classpath]
      exact hheld
  · exact h.pledged target ((h.counted.contains_iff target).mp hpromised)

/-- What is published for a file declares what its text declares, and it may last. -/
theorem lasting_of_published (h : Grounded base files records e) (hproject : base.Orderly files)
    (hf : f ∈ files) (hsymbols : symbols = e.freshSymbols f.1 f.2 ∨
      ∃ file : SourceFile, file.fingerprint = .ofText f.2 ∧ (e.reading f.1).Recalled f.1 file symbols) :
    symbols.SameDeclarations (base.bareEntry f).symbols ∧
      Lasting base files records (f :: e.indexedOf files) f symbols := by
  rcases hsymbols with rfl | ⟨file, hprint, hrecalled⟩
  · refine ⟨?_, ?_⟩
    · rw [← bareEntry_congr h.rules]
      exact e.sameDeclarations_freshSymbols f
    · rw [h.freshSymbols_eq]
      exact (hproject.mends _ List.filter_sublist f hf).imp_right Or.inl
  · obtain ⟨hdeclares, horigin⟩ := h.trusted_of_recalled hf hprint hrecalled
    refine ⟨hdeclares, ?_⟩
    by_cases hright : symbols = base.boundAmong files f
    · exact Or.inl hright
    right
    by_cases hwants : base.Wants files [f] symbols
    · -- what it failed on could not be resolved when the record was taken, so it is yet to come
      left
      obtain ⟨name, hname, hoffered, hown⟩ := hwants
      refine ⟨name, hname, hoffered, fun hknown => ?_⟩
      rcases offered_cons_iff.mp hknown with hknown | hknown
      · exact hown (offered_cons_iff.mpr (Or.inl hknown))
      · have hwaits : e.index.canResolve name = false := hrecalled.waits name hname
        rw [(h.canResolve_iff name).mpr hknown] at hwaits
        exact Bool.false_ne_true hwaits.symm
    · right
      refine ⟨horigin.resolve_right fun hor => hor.elim hright hwants, hright, hwants, ?_⟩
      exact fun target htarget => h.declaredAmong_of_recalled hf hrecalled hdeclares htarget

/-- What is bound anew is on record as it should be. -/
theorem trusted_freshSymbols (h : Grounded base files records e) (hproject : base.Orderly files)
    (hf : f ∈ files) : Trusted base files records f (e.freshSymbols f.1 f.2) := by
  refine ⟨(h.lasting_of_published hproject hf (Or.inl rfl)).1, Or.inr ?_⟩
  rw [h.freshSymbols_eq]
  apply (hproject.mends _ List.filter_sublist f hf).imp_right
  intro hwants
  apply hwants.mono
  rintro name ⟨g, hg, hoffers⟩
  exact ⟨g, List.mem_cons.mpr (Or.inl (List.mem_singleton.mp hg)), hoffers⟩

theorem stored_analyzeFile (h : Grounded base files records e) (hproject : base.Orderly files)
    (hf : f ∈ files) (t : Trigger) (hstore : e.store ≠ none) :
    (e.analyzeFile f.1 t).1.world.Every (StoreDirectory.Recorded fun p r => ∀ f ∈ files, p = f.1 →
      r.fingerprint = .ofText f.2 → Trusted base files records f r.payload) := by
  apply every_analyzeFile (StoreDirectory.lasts_recorded _) (h.stored hstore)
  intro file hfile d d' hd
  have hcontent := (content?_of_found hfile).symm.trans (h.text f hf)
  rw [Option.some_inj, Prod.mk.injEq] at hcontent
  rw [hcontent.1, hcontent.2, h.symbolsFor_eq hf]
  apply hd.store
  rintro p r hkey - hpayload g hg rfl -
  obtain rfl := hproject.keys g hg f hf hkey
  rw [hpayload]
  exact h.trusted_freshSymbols hproject hf

end Grounded

/-! ## One analysis -/

theorem located_of_sameDeclarations (h : symbols.SameDeclarations (base.bareEntry f).symbols) :
    symbols.Located f.1 := by
  have hsame := h.trans (base.sameDeclarations_freshSymbols f).symm
  rw [FileSymbols.Located, hsame.symbols]
  exact base.located_freshSymbols f.1 f.2

theorem Hosts.exists_published (h : e.Hosts files) (hindex : e.index.Exact) (hf : f ∈ files)
    (print : Fingerprint) (hlocated : symbols.Located f.1) :
    ∃ x, (e.index.upsert f.1 print symbols).1.file? f.1 = some x ∧ x.symbols = symbols := by
  cases hholds : e.index.holds f.1 print symbols with
  | false =>
    rw [Snapshot.file?_upsert hholds, if_pos ReflCmp.compare_self]
    exact ⟨_, rfl, rfl⟩
  | true =>
    rw [Snapshot.upsert_of_holds hholds]
    rw [Snapshot.holds, Option.any_eq_true] at hholds
    obtain ⟨x, hx, hsame⟩ := hholds
    rw [Bool.and_eq_true] at hsame
    have hold := h.located x (hindex.file?_eq_some_iff.mp hx).1
    rw [h.path_eq hindex hf hx] at hold
    exact ⟨x, hx, hold.eq_of_beq hlocated hsame.2⟩

/-- The analysis of a file passes it over or publishes symbols that may last. -/
structure Publishes (base : Engine) (files : List (Path × String))
    (records : Path × String → FileSymbols → Prop) (e : Engine) (f : Path × String) (after : Snapshot)
    (a : Analysis) (symbols : FileSymbols) : Prop where
  index : after = (e.index.upsert f.1 (.ofText f.2) symbols).1
  stale : a.stale = staleAfter f.1 (e.index.upsert f.1 (.ofText f.2) symbols).2 e.index after
  declares : symbols.SameDeclarations (base.bareEntry f).symbols
  lasting : Lasting base files records (f :: e.indexedOf files) f symbols
  shown : ∃ x, after.file? f.1 = some x ∧ x.symbols = symbols

section Analyzed

variable {after : Snapshot} (h : Grounded base files records e) (hproject : base.Orderly files)
  (hf : f ∈ files) (heffect : Effect e f.1 t after a)

include h hproject hf heffect

theorem Grounded.passes_or_publishes :
    (after = e.index ∧ t = .content) ∨ ∃ symbols, Publishes base files records e f after a symbols := by
  apply (h.effect_cases hf heffect).imp_right
  rintro ⟨symbols, rfl, hstale, hsymbols⟩
  obtain ⟨hdeclares, hlasting⟩ := h.lasting_of_published hproject hf hsymbols
  exact ⟨symbols, rfl, hstale, hdeclares, hlasting,
    h.exists_published h.exact hf _ (located_of_sameDeclarations hdeclares)⟩

theorem Grounded.shown_of_effect {g : Path × String} (hg : g ∈ files) {x : FileEntry}
    (hx : after.file? g.1 = some x) : x.symbols.SameDeclarations (base.bareEntry g).symbols := by
  by_cases hc : compare g.1 f.1 = .eq
  · obtain rfl := h.eq_of_compare hg hf hc
    rcases h.passes_or_publishes hproject hf heffect with ⟨rfl, -⟩ | ⟨symbols, hpublishes⟩
    · exact h.shown g hg x hx
    · obtain ⟨y, hy, hsymbols⟩ := hpublishes.shown
      obtain rfl := Option.some.inj (hx.symm.trans hy)
      rw [hsymbols]
      exact hpublishes.declares
  · rw [heffect.file?_of_ne hc] at hx
    exact h.shown g hg x hx

theorem Grounded.located_of_effect {x : FileEntry} (hx : x ∈ after.entries) :
    x.symbols.Located x.path := by
  rcases h.passes_or_publishes hproject hf heffect with ⟨rfl, -⟩ | ⟨symbols, hpublishes⟩
  · exact h.located x hx
  · rw [hpublishes.index] at hx
    rcases h.exact.mem_or_eq_of_mem_upsert hx with hx | rfl
    · exact h.located x hx
    · exact located_of_sameDeclarations hpublishes.declares

end Analyzed

theorem Grounded.analyzeFile (h : Grounded base files records e) (hproject : base.Orderly files)
    (hf : f ∈ files) (t : Trigger) : Grounded base files records (e.analyzeFile f.1 t).1 := by
  obtain ⟨hkeeps, heffect⟩ := analyzeFile_spec e f.1 t
  have hparses : (e.analyzeFile f.1 t).1.parses = e.parses ∨
      (e.analyzeFile f.1 t).1.parses = (e.parses.parseCached f.1 f.2 (.ofText f.2)).1 := by
    have hcontent := h.text f hf
    rcases hfile : e.registry.file f.1 with ⟨registry, _ | file⟩
    · rw [content?_of_missing (by rw [hfile])] at hcontent
      simp at hcontent
    · have hfound : (e.registry.file f.1).2 = some file := by rw [hfile]
      rw [content?_of_found hfound, Option.some_inj, Prod.mk.injEq] at hcontent
      have hall := parses_analyzeFile t hfound
      rwa [hcontent.1, hcontent.2] at hall
  refine ⟨⟨?_, heffect.exact h.exact, ?_, h.few, ?_⟩, ?_, ?_, ?_⟩
  · exact h.of_effect h.exact hf hkeeps heffect hparses fun x hx =>
      h.located_of_effect hproject hf heffect hx
  · exact h.rules.trans ⟨by rw [hkeeps.config], hkeeps.classpath, hkeeps.parse⟩
  · exact fun g hg x hx => h.shown_of_effect hproject hf heffect hg hx
  · rw [hkeeps.queue]
    exact h.counted
  · rw [hkeeps.queue]
    exact h.pledged
  · rw [hkeeps.store]
    exact h.stored_analyzeFile hproject hf t

theorem Grounded.step (h : Grounded base files records e) (hproject : base.Orderly files) :
    Grounded base files records e.step := by
  cases hin : e.inFlight with
  | nil => rwa [step_of_nil hin]
  | cons job rest =>
    obtain ⟨p, t⟩ := job
    obtain ⟨f, hf, rfl⟩ := h.exists_file hin
    obtain ⟨e', a, hanalyze, -, -, hstep⟩ := step_of_cons hin
    have hafter := (h.withJobs hin).analyzeFile hproject hf t
    rw [hanalyze] at hafter
    have hwithin := h.within.step h.exact
    obtain ⟨hcounted, hpledged⟩ := counted_step h.counted
    rw [hstep] at hwithin hcounted hpledged ⊢
    have hrules : SameRules base (e'.conclude f.1 a) :=
      ⟨hafter.rules.indexing, hafter.rules.classpath, hafter.rules.parse⟩
    exact ⟨⟨hafter.toHosts.conclude hwithin, hafter.exact, hrules, h.few, hafter.shown⟩,
      hcounted, fun t ht => h.pledged t (hpledged ht), hafter.stored⟩

/-! ## Progress -/

theorem Lasting.mono {known known' : List (Path × String)}
    (h : Lasting base files records known f symbols)
    (hsubset : ∀ name, base.Offered known' name → base.Offered known name) :
    Lasting base files records known' f symbols :=
  h.imp_right fun h => h.imp_left fun h => h.mono hsubset

/-- Only the analyzed file may be new among those that are indexed. -/
theorem Portrays.offered_of_effect {after : Snapshot} (h : Portrays base files e) (hf : f ∈ files)
    (heffect : Effect e f.1 t after a) (hindex : e'.index = after) {name : String}
    (hoffered : base.Offered (e'.indexedOf files) name) : base.Offered (f :: e.indexedOf files) name := by
  obtain ⟨g, hg, hoffers⟩ := hoffered
  obtain ⟨hmem, x, hx⟩ := mem_indexedOf_iff.mp hg
  rw [hindex] at hx
  refine ⟨g, List.mem_cons.mpr ?_, hoffers⟩
  by_cases hc : compare g.1 f.1 = .eq
  · exact Or.inl (h.eq_of_compare hmem hf hc)
  · rw [heffect.file?_of_ne hc] at hx
    exact Or.inr (mem_indexedOf_iff.mpr ⟨hmem, x, hx⟩)

namespace Converges

section Analyzed

variable (h : Converges base files records e) (hproject : base.Orderly files) (hf : f ∈ files)
  (hin : e.inFlight = (f.1, t) :: rest) (hkeeps : Keeps (e.withJobs rest) e')
  (heffect : Effect (e.withJobs rest) f.1 t e'.index a) (hstep : e.step = e'.conclude f.1 a)
  {x : FileEntry}

include h hproject hf hin hkeeps heffect hstep

theorem progress_self (hx : e.step.index.file? f.1 = some x) :
    e.step.Due f.1 ∨ Lasting base files records (e.step.indexedOf files) f x.symbols := by
  have hindex := index_step hstep
  rcases (h.toGrounded.withJobs hin).passes_or_publishes hproject hf heffect with
    ⟨hsame, rfl⟩ | ⟨symbols, hpublishes⟩
  · have hkept : e.step.index = e.index := hindex.trans hsame
    rw [hkept] at hx
    rcases h.progress f hf x hx with hdue | hlasting
    · exact Or.inl ((due_step h.sane.wellFormed hin hkeeps hstep hdue).resolve_right (by simp))
    · right
      rwa [indexedOf, hkept]
  · obtain ⟨y, hy, hsymbols⟩ := hpublishes.shown
    rw [hindex] at hx
    obtain rfl := Option.some.inj (hx.symm.trans hy)
    right
    rw [hsymbols]
    apply hpublishes.lasting.mono
    intro name hoffered
    exact (h.toGrounded.withJobs hin).offered_of_effect hf heffect hindex hoffered

/-- Another file stays as it was, or the name that it waits for has come and it is to be bound anew. -/
theorem progress_other {g : Path × String} (hg : g ∈ files) (hc : compare g.1 f.1 ≠ .eq)
    (hx : e.step.index.file? g.1 = some x) :
    e.step.Due g.1 ∨ Lasting base files records (e.step.indexedOf files) g x.symbols := by
  have hindex := index_step hstep
  have hafter := h.toGrounded.step hproject
  have hold : e.index.file? g.1 = some x := by
    rw [hindex, heffect.file?_of_ne hc] at hx
    exact hx
  rcases h.progress g hg x hold with hdue | hright | hwants | hdeceived
  · have hdue := due_step h.sane.wellFormed hin hkeeps hstep hdue
    exact Or.inl (hdue.resolve_right fun hboth => hc hboth.1)
  · exact Or.inr (Or.inl hright)
  · obtain ⟨name, hname, hoffered, hunknown⟩ := hwants
    by_cases hcome : base.Offered (e.step.indexedOf files) name
    · left
      rw [← h.offers_iff] at hunknown
      rw [← hafter.offers_iff, hindex] at hcome
      rcases (h.toGrounded.withJobs hin).passes_or_publishes hproject hf heffect with
        ⟨hsame, -⟩ | ⟨symbols, hpublishes⟩
      · rw [hsame] at hcome
        exact absurd hcome hunknown
      · have hpath := h.path_eq h.exact hg hold
        have hmem : x ∈ e'.index.entries := by
          rw [← hindex]
          exact (hafter.exact.file?_eq_some_iff.mp hx).1
        rw [hpublishes.index] at hcome hmem
        have hstale := h.exact.oneOf_staleAfter_of_offers hunknown hcome hmem (by rwa [hpath]) hname
        have hverdict := hpublishes.stale
        rw [hpublishes.index] at hverdict
        rw [← hpath]
        apply due_of_asked h.sane.wellFormed hin hkeeps hstep
        refine Or.inr (oneOf_asked_of_verdict (Or.inl ?_) (by rwa [hpath]))
        rw [hverdict]
        exact hstale
    · exact Or.inr (Or.inr (Or.inl ⟨name, hname, hoffered, hcome⟩))
  · exact Or.inr (Or.inr (Or.inr hdeceived))

end Analyzed

theorem step (h : Converges base files records e) (hproject : base.Orderly files) :
    Converges base files records e.step := by
  refine ⟨h.toGrounded.step hproject, h.sane.run (System.run_step e [] .free), fun g hg x hx => ?_⟩
  cases hin : e.inFlight with
  | nil =>
    rw [step_of_nil hin] at hx ⊢
    exact h.progress g hg x hx
  | cons job rest =>
    obtain ⟨p, t⟩ := job
    obtain ⟨f, hf, rfl⟩ := h.exists_file hin
    obtain ⟨e', a, -, hkeeps, heffect, hstep⟩ := step_of_cons hin
    by_cases hc : compare g.1 f.1 = .eq
    · obtain rfl := h.eq_of_compare hg hf hc
      exact h.progress_self hproject hf hin hkeeps heffect hstep hx
    · exact h.progress_other hproject hf hin hkeeps heffect hstep hg hc hx

theorem run (h : Converges base files records e) (hproject : base.Orderly files) (n : Nat) :
    Converges base files records (e.run n) :=
  run_of_step (fun _ h => h.step hproject) n h

/-- At rest every file of the project is indexed, with the symbols it is to have in the end or with
those of a record that deceives. -/
theorem at_rest (h : Converges base files records e) (hidle : e.isIdle = true) (hf : f ∈ files) :
    ∃ x, e.index.file? f.1 = some x ∧ (x.symbols = base.boundAmong files f ∨
      (records f x.symbols ∧ base.Deceives files f x.symbols)) := by
  have hindexed {g : Path × String} (hg : g ∈ files) : ∃ x, e.index.file? g.1 = some x := by
    have hsome := isSome_file?_of_isIdle h.sane.invariant hidle g.1
    rw [Registry.text?_eq_content?, h.text g hg] at hsome
    exact Option.isSome_iff_exists.mp hsome
  obtain ⟨x, hx⟩ := hindexed hf
  refine ⟨x, hx, ?_⟩
  have hlasting := (h.progress f hf x hx).resolve_left (not_due h.sane.wellFormed hidle f.1)
  rcases hlasting with hright | ⟨name, -, ⟨g, hg, hoffers⟩, hunknown⟩ | hdeceived
  · exact Or.inl hright
  · -- every file that could bring the name is indexed
    exact absurd ⟨g, mem_indexedOf_iff.mpr ⟨hg, hindexed hg⟩, hoffers⟩ hunknown
  · exact Or.inr hdeceived

end Converges

end Engine

end JavaAtlas
