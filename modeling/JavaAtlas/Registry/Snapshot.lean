import JavaAtlas.Registry.Basic

/-!
# Fingerprints and versions at one moment
-/

namespace JavaAtlas

set_option autoImplicit false

structure SnapshotEntry where
  fingerprint : Fingerprint
  version : Nat

abbrev RegistrySnapshot := SortedMap Path SnapshotEntry

structure SnapshotDiff where
  added : List Path
  modified : List Path
  removed : List Path

namespace SnapshotDiff

def isEmpty (d : SnapshotDiff) : Bool := d.added.isEmpty && d.modified.isEmpty && d.removed.isEmpty

def paths (d : SnapshotDiff) : List Path := (d.added ++ d.modified ++ d.removed).mergeSort Path.le

end SnapshotDiff

/-- The state of every file, whose fingerprints are remembered from now on. -/
def Registry.snapshot (r : Registry) : Registry × RegistrySnapshot :=
  ({ r with files := r.files.map fun _ f => f.memoized },
    r.files.map fun _ f => ⟨f.fingerprint, f.version⟩)

/-- What changed since `earlier`. The same text under a new version is no change. -/
def RegistrySnapshot.diff (now earlier : RegistrySnapshot) : SnapshotDiff where
  added := now.keys.filter fun p => !earlier.contains p
  modified := (now.entries.filter fun e =>
    (earlier.get? e.1).any fun old => old.fingerprint != e.2.fingerprint).map (·.1)
  removed := earlier.keys.filter fun p => !now.contains p

end JavaAtlas
