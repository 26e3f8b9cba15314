import JavaAtlas.Proofs.Engine.Records
import JavaAtlas.Proofs.Engine.Traced

/-!
# What is indexed was extracted

Over stores that only engines have written to, whatever the workers and the client do in whatever
order, every file is indexed with symbols that were extracted from some text.
-/

namespace JavaAtlas

set_option autoImplicit false

/-- The symbols an analysis is about to publish. -/
def Stage.symbols? : Stage → Option FileSymbols
  | .bound _ _ symbols _ => some symbols
  | _ => none

namespace System

/-- What is stored, indexed and about to be published was extracted. -/
structure Genuine (s : System) : Prop where
  stored : s.engine.world.Written
  indexed : ∀ x ∈ s.engine.index.entries, x.symbols.Extracted
  staged : ∀ job ∈ s.active, ∀ symbols ∈ job.stage.symbols?, symbols.Extracted

namespace Genuine

variable {e e' : Engine} {active active' : List Job} {client client' : Client}

theorem of_eq (h : Genuine ⟨e, active, client⟩) (hwritten : e'.world.Written)
    (hindex : e'.index = e.index) : Genuine ⟨e', active, client'⟩ :=
  ⟨hwritten, fun x hx => h.indexed x (hindex ▸ hx), h.staged⟩

/-- Jobs may go as they please; new ones have not got to anything yet. -/
theorem of_jobs (h : Genuine ⟨e, active, client⟩) (hwritten : e'.world.Written)
    (hindex : e'.index = e.index)
    (hjobs : ∀ job ∈ active', job ∈ active ∨ job.stage.symbols? = none) :
    Genuine ⟨e', active', client'⟩ where
  stored := hwritten
  indexed x hx := h.indexed x (hindex ▸ hx)
  staged job hjob symbols hsymbols := by
    rcases hjobs job hjob with hold | hnone
    · exact h.staged job hold symbols hsymbols
    · simp [hnone] at hsymbols

theorem advance (hexact : e.index.Exact) (hwritten : e.world.Written)
    (hindexed : ∀ x ∈ e.index.entries, x.symbols.Extracted) (path : Path) (trigger : Trigger)
    {stage : Stage} (hstage : ∀ symbols ∈ stage.symbols?, symbols.Extracted) :
    (e.advance path trigger stage).1.world.Written ∧
      (∀ x ∈ (e.advance path trigger stage).1.index.entries, x.symbols.Extracted) ∧
      ∀ symbols ∈ (e.advance path trigger stage).2.symbols?, symbols.Extracted := by
  cases stage with
  | viewed before =>
    rw [Engine.advance]
    split <;> exact ⟨hwritten, hindexed, by simp [Stage.symbols?]⟩
  | found before file =>
    rw [Engine.advance]
    split
    · exact ⟨hwritten, hindexed, by simp [Stage.symbols?]⟩
    · refine ⟨Engine.written_symbolsOf (e := { e with index := before }) hwritten path trigger file,
        hindexed, ?_⟩
      rintro symbols ⟨rfl⟩
      exact Engine.extracted_symbolsOf (e := { e with index := before }) hwritten path trigger file
  | bound before file symbols fromCache =>
    refine ⟨hwritten, fun x hx => ?_, by simp [Engine.advance, Stage.symbols?]⟩
    replace hx : x ∈ (e.index.upsert path file.fingerprint symbols).1.entries := hx
    rcases hexact.mem_or_eq_of_mem_upsert hx with hx | rfl
    · exact hindexed x hx
    · exact hstage symbols rfl
  | missing before =>
    refine ⟨hwritten, fun x hx => ?_, by simp [Engine.advance, Stage.symbols?]⟩
    exact hindexed x (hexact.mem_of_mem_remove hx)
  | dropped before removed =>
    refine ⟨Engine.written_removeRecord hwritten path, fun x hx => ?_,
      by simp [Engine.advance, Stage.symbols?]⟩
    have hindex : (e.removeRecord path).index = e.index := (Engine.agrees_removeRecord e path).index
    replace hx : x ∈ (e.removeRecord path).index.entries := hx
    exact hindexed x (hindex ▸ hx)
  | published before file outcome fromCache =>
    exact ⟨hwritten, hindexed, by simp [Engine.advance, Stage.symbols?]⟩
  | recorded before file outcome fromCache =>
    exact ⟨hwritten, hindexed, by simp [Engine.advance, Stage.symbols?]⟩
  | evicted before removed =>
    exact ⟨hwritten, hindexed, by simp [Engine.advance, Stage.symbols?]⟩
  | judged a => exact ⟨hwritten, hindexed, by simp [Engine.advance, Stage.symbols?]⟩
  | released a promised => exact ⟨hwritten, hindexed, by simp [Engine.advance, Stage.symbols?]⟩
  | done a => exact ⟨hwritten, hindexed, by simp [Engine.advance, Stage.symbols?]⟩

theorem step {s s' : System} (h : s.Genuine) (hexact : s.engine.index.Exact) (hstep : Step s s') :
    s'.Genuine := by
  cases hstep with
  | disk e active client disk => exact h.of_eq h.stored rfl
  | change e active client call registry hclient hcall => exact h.of_eq h.stored rfl
  | adopt e active project =>
    have hagrees := Engine.agrees_openStore { e with
      parses := e.parses.setLanguageLevel project.languageLevel
      classpath := .buildLenient e.world.disk project.classpath } project
    exact h.of_eq (Engine.written_adopt h.stored project) hagrees.index
  | keep e active project => exact h.of_eq h.stored rfl
  | collect e active => exact h.of_eq h.stored rfl
  | order e active paths trigger =>
    exact h.of_eq (Engine.written_orderBatch h.stored paths) (Engine.reads_orderBatch e paths).index
  | enqueue e active order promises trigger => exact h.of_eq h.stored rfl
  | start e active client left right path trigger hin =>
    refine h.of_jobs h.stored rfl fun job hjob => ?_
    rcases List.mem_cons.mp hjob with rfl | hjob
    · exact Or.inr rfl
    · exact Or.inl hjob
  | advance e left right client job hstage =>
    have hjob : job ∈ left ++ job :: right := List.mem_append_right _ List.mem_cons_self
    obtain ⟨hwritten, hindexed, hsymbols⟩ :=
      advance hexact h.stored h.indexed job.path job.trigger (h.staged job hjob)
    refine ⟨hwritten, hindexed, fun other hother symbols hother' => ?_⟩
    rcases List.mem_append.mp hother with hleft | hright
    · exact h.staged other (List.mem_append_left _ hleft) symbols hother'
    · rcases List.mem_cons.mp hright with rfl | hright
      · exact hsymbols symbols hother'
      · exact h.staged other (List.mem_append_right _ (List.mem_cons_of_mem _ hright)) symbols hother'
  | finish e left right client path trigger a =>
    refine h.of_jobs h.stored rfl fun job hjob => Or.inl ?_
    rcases List.mem_append.mp hjob with hjob | hjob
    · exact List.mem_append_left _ hjob
    · exact List.mem_append_right _ (List.mem_cons_of_mem _ hjob)

theorem run {s s' : System} (h : s.Genuine) (hsane : s.Sane) (hrun : Run s s') : s'.Genuine := by
  induction hrun with
  | refl => exact h
  | tail hbefore hstep ih => exact ih.step (hsane.run hbefore).traced.exact hstep

end Genuine

/-- Whatever was asked of an engine and however its workers were interleaved, all it has indexed was
extracted, and it leaves such stores as it found. -/
theorem genuine_of_run {config : EngineConfig} {world : World} {s : System}
    (hrun : Run (start config world) s) (hwritten : world.Written) : s.Genuine := by
  refine Genuine.run ⟨hwritten, fun x hx => ?_, fun job hjob => ?_⟩ (sane_start config world) hrun
  · simp [start, Engine.ofConfig, Snapshot.entries, SortedMap.values,
      EmptyCollection.emptyCollection] at hx
  · simp [start] at hjob

end System

end JavaAtlas
