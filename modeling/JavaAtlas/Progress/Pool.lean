import JavaAtlas.Naming

/-!
# Pools of workers
-/

namespace JavaAtlas

set_option autoImplicit false

universe u

inductive Pool
  | compute
  | background
deriving DecidableEq

instance : Named Pool where
  all := [.compute, .background]
  name
    | .compute => "compute"
    | .background => "background"

def Pool.threadName : Pool → String
  | .compute => "sable-compute"
  | .background => "sable-background"

def Pool.workerCount (asked : Nat) : Nat := max asked 1

/-- The results of the jobs that come to an end, with the name of the thread they ran on. A job
without a result does not stop the others. -/
def Pool.run {α : Type u} (pool : Pool) (jobs : List (Option α)) : List (α × String) :=
  jobs.filterMap fun job => job.map fun result => (result, pool.threadName)

end JavaAtlas
