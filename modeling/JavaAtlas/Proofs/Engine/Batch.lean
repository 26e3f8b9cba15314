import JavaAtlas.Proofs.Engine.Interleaving
import JavaAtlas.Proofs.Engine.Order
import JavaAtlas.Proofs.Registry.Changes

/-!
# Ordering a batch loses no file

Whatever the records say, each file of a batch is queued. Reading the records and fingerprints for
it changes nothing that an analysis could see.
-/

namespace JavaAtlas

set_option autoImplicit false

open Std (TransCmp OrientedCmp ReflCmp)

namespace BatchOrder

theorem oneOf_ordered {paths : List Path} {hints : Hints} {x : Path} (hx : x.OneOf paths) :
    x.OneOf (if hints.isEmpty then paths else byHints paths hints) := by
  split
  · exact hx
  · exact (Path.oneOf_perm (byHints_perm paths hints) x).mpr hx

theorem mem_of_mem_ordered {paths : List Path} {hints : Hints} {x : Path}
    (hx : x ∈ if hints.isEmpty then paths else byHints paths hints) : x ∈ paths := by
  split at hx
  · exact hx
  · exact (byHints_perm paths hints).mem_iff.mp hx

end BatchOrder

namespace Engine

/-- Everything an analysis could see is as it was. -/
structure Reads (e e' : Engine) : Prop where
  config : e'.config = e.config
  registry : Registry.Memoizes e.registry e'.registry
  index : e'.index = e.index
  classpath : e'.classpath = e.classpath
  store : e'.store = e.store
  queue : e'.queue = e.queue
  inFlight : e'.inFlight = e.inFlight

theorem Reads.refl (e : Engine) : Reads e e := ⟨rfl, .refl _, rfl, rfl, rfl, rfl, rfl⟩

theorem Reads.trans {a b c : Engine} (h : Reads a b) (h' : Reads b c) : Reads a c :=
  ⟨h'.config.trans h.config, h.registry.trans h'.registry, h'.index.trans h.index,
    h'.classpath.trans h.classpath, h'.store.trans h.store, h'.queue.trans h.queue,
    h'.inFlight.trans h.inFlight⟩

theorem Agrees.reads {e e' : Engine} (h : Agrees e e') : Reads e e' where
  config := h.config
  registry := by
    rw [h.registry]
    exact .refl _
  index := h.index
  classpath := h.classpath
  store := h.store
  queue := h.queue
  inFlight := h.inFlight

theorem reads_hintsFor (paths : List Path) (e : Engine) : Reads e (hintsFor paths e).1 := by
  induction paths generalizing e with
  | nil => exact .refl e
  | cons path rest ih =>
    have hload := (agrees_loadRecord e path).reads
    rcases hfound : e.loadRecord path with ⟨e₁, found⟩
    rw [hfound] at hload
    have hfile : Reads e₁ { e₁ with registry := (e₁.registry.file path).1 } :=
      ⟨rfl, Registry.memoizes_file _ path, rfl, rfl, rfl, rfl, rfl⟩
    have hrest := (hload.trans hfile).trans (ih _)
    simp only [hintsFor, hfound]
    cases found <;> exact hrest

/-- What neither reading a record nor a file changes, ordering a batch does not change. -/
theorem hintsFor_keeps {α : Type} (f : Engine → α)
    (hload : ∀ (e : Engine) (path : Path), f (e.loadRecord path).1 = f e)
    (hfile : ∀ (e : Engine) (path : Path),
      f { e with registry := (e.registry.file path).1 } = f e)
    (paths : List Path) (e : Engine) : f (hintsFor paths e).1 = f e := by
  induction paths generalizing e with
  | nil => rfl
  | cons path rest ih =>
    have hload := hload e path
    rcases hfound : e.loadRecord path with ⟨e₁, found⟩
    rw [hfound] at hload
    have hrest := ((ih _).trans (hfile e₁ path)).trans hload
    simp only [hintsFor, hfound]
    cases found <;> exact hrest

theorem orderBatch_keeps {α : Type} (f : Engine → α)
    (hload : ∀ (e : Engine) (path : Path), f (e.loadRecord path).1 = f e)
    (hfile : ∀ (e : Engine) (path : Path),
      f { e with registry := (e.registry.file path).1 } = f e)
    (e : Engine) (paths : List Path) : f (e.orderBatch paths).1 = f e := by
  rw [orderBatch]
  cases he : e.store with
  | none => rfl
  | some root => exact hintsFor_keeps f hload hfile _ e

theorem reads_orderBatch (e : Engine) (paths : List Path) : Reads e (e.orderBatch paths).1 := by
  rw [orderBatch]
  cases he : e.store with
  | none => exact .refl e
  | some root => exact reads_hintsFor _ e

theorem oneOf_orderBatch (e : Engine) {paths : List Path} {x : Path} (hx : x.OneOf paths) :
    x.OneOf (e.orderBatch paths).2.1 := by
  have hsorted : x.OneOf (SortedSet.toList (SortedSet.ofList paths)) := by
    apply SortedSet.contains_iff_exists_mem.mp
    obtain ⟨p, hp, hc⟩ := hx
    rw [SortedSet.contains_ofList]
    exact List.any_eq_true.mpr ⟨p, hp, by simp [hc]⟩
  exact BatchOrder.oneOf_ordered hsorted

theorem mem_of_mem_promises {paths : List Path} {e : Engine} {p : Path}
    (hp : p ∈ (hintsFor paths e).2.2.map (·.1)) : p ∈ paths := by
  induction paths generalizing e with
  | nil => simp [hintsFor] at hp
  | cons path rest ih =>
    rcases hfound : e.loadRecord path with ⟨e₁, found⟩
    simp only [hintsFor, hfound] at hp
    cases found with
    | miss reason => exact List.mem_cons_of_mem _ (ih hp)
    | hit print symbols =>
      simp only at hp
      split at hp
      · rw [List.map_cons, List.mem_cons] at hp
        rcases hp with rfl | hp
        · exact List.mem_cons_self
        · exact List.mem_cons_of_mem _ (ih hp)
      · exact List.mem_cons_of_mem _ (ih hp)

/-- Only for files that are queued is anything promised. -/
theorem oneOf_order_of_promised (e : Engine) {paths : List Path} {p : Path}
    (hp : p.OneOf ((e.orderBatch paths).2.2.map (·.1))) : p.OneOf (e.orderBatch paths).2.1 := by
  obtain ⟨x, hx, hc⟩ := hp
  refine (Path.oneOf_congr hc _).mpr ?_
  rw [orderBatch] at hx ⊢
  cases he : e.store with
  | none => simp [he] at hx
  | some root =>
    simp only [he] at hx ⊢
    exact BatchOrder.oneOf_ordered (Path.oneOf_of_mem (mem_of_mem_promises hx))

end Engine

end JavaAtlas
