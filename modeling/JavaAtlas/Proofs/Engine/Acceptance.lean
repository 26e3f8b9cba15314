import JavaAtlas.Proofs.Engine.Effect
import JavaAtlas.Proofs.Queue.Outstanding

/-!
# Records taken over on a promise

A stored record that is bound to a type which nothing declares yet is taken over only while the type
is promised. Promises are counted exactly, so there is then a file that promises the type and has yet
to be analyzed; at rest no promise counts.
-/

namespace JavaAtlas

set_option autoImplicit false

namespace Engine

/-- Whatever a record that is taken over is bound to is declared by the record itself, in the index or
on the classpath, or promised for a file that waits or is being analyzed. -/
def AcceptsVouched (e : Engine) : Prop :=
  ∀ (path : Path) (file : SourceFile) (e' : Engine) (symbols : FileSymbols),
    e.cachedSymbols? path file = (e', some symbols) → ∀ target ∈ symbols.boundTargets,
      target ∈ symbols.types.map (·.fqn) ∨ (e.contextOf e.index).hasType target = true ∨
        (e.queue.isIdle = false ∧ e.queue.Vouched target)

theorem acceptsVouched_of_promisesExact {e : Engine} (h : e.queue.PromisesExact) :
    e.AcceptsVouched := by
  intro path file e' symbols haccepted target htarget
  have hbound := (recalled_of_cachedSymbols? haccepted).bound
  rw [unboundTarget?_eq_none_iff] at hbound
  refine (hbound target htarget).imp_right fun hknown => hknown.imp_right fun hpromised => ?_
  refine ⟨?_, h.vouched hpromised⟩
  rw [← Bool.not_eq_true]
  intro hidle
  rw [(h.idle hidle).2] at hpromised
  exact SortedMap.not_contains_empty target hpromised

/-- Whatever is asked of a queue, its promises are counted exactly and none outlives the analysis of
its file; so no record is taken over on a promise that no file is to keep any more. -/
theorem promises_exact {workers : Nat} {q : Queue} {l : Queue.History} {kept : List Path}
    (h : q.Worked workers l kept) :
    q.PromisesExact ∧ ∀ e : Engine, ({ e with queue := q } : Engine).AcceptsVouched := by
  have hexact := Queue.promisesExact_of_worked h
  refine ⟨hexact, fun e => ?_⟩
  exact acceptsVouched_of_promisesExact hexact

/-- With one worker: two files promise the same type, one of them also another one twice; the promise
of that file is replaced while the file is being analyzed, and the other one is not yet begun. -/
theorem promises_exact_replaced :
    ∃ q l kept, Queue.Worked 1 q l kept ∧ q.PromisesExact ∧
      (∀ e : Engine, ({ e with queue := q } : Engine).AcceptsVouched) ∧
      q.promised.get? "p.B" = some 2 ∧ q.promised.get? "p.A" = none ∧ q.running = 1 := by
  have hstart : Queue.Worked 1 {} {} [] := .start
  have hasked := hstart.schedule [⟨"/a.java"⟩, ⟨"/b.java"⟩]
    [(⟨"/a.java"⟩, ["p.A", "p.B", "p.A"]), (⟨"/b.java"⟩, ["p.B"])]
    (by simp [Path.OneOf]) .content
  have hagain := hasked.schedule [⟨"/a.java"⟩] [(⟨"/a.java"⟩, ["p.B"])]
    (by simp [Path.OneOf]) .content
  obtain ⟨hexact, haccepts⟩ := promises_exact hagain
  refine ⟨_, _, _, hagain, hexact, haccepts, ?_⟩
  decide +kernel

end Engine

end JavaAtlas
