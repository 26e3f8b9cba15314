import JavaAtlas.Data.SortedMap
import JavaAtlas.Path

/-!
# Files on disk

What a directory tree holds, as a value: plain files, archives of which only the entry names matter,
and directories. Some of the files cannot be read and some of the directories cannot be listed. Every
path in it is absolute and without `.` or `..`.
-/

namespace JavaAtlas

set_option autoImplicit false

inductive DiskNode
  | directory
  | file (bytes : List UInt8)
  | archive (entryNames : List String)
  /-- A directory that cannot be listed, and why. -/
  | sealed (cause : String)
  /-- A file that cannot be read, and why. -/
  | locked (cause : String)
deriving DecidableEq

def DiskNode.isDirectory : DiskNode → Bool
  | .directory | .sealed _ => true
  | _ => false

def DiskNode.isSealed : DiskNode → Bool
  | .sealed _ => true
  | _ => false

structure Disk where
  nodes : SortedMap Path DiskNode := ∅

namespace Disk

def ancestors (p : Path) : List Path :=
  (List.range (p.components.length - 1)).map fun n => Path.ofComponents (p.components.take (n + 1))

def isDirectory (d : Disk) (p : Path) : Bool := (d.nodes.get? p).any DiskNode.isDirectory

def isFile (d : Disk) (p : Path) : Bool := (d.nodes.get? p).any fun n => !n.isDirectory

/-- A plain file stands at the path or above it, so no directory can be made there. -/
def isBlocked (d : Disk) (p : Path) : Bool := d.isFile p || (ancestors p).any d.isFile

def makeDirectories (d : Disk) (paths : List Path) : Disk :=
  paths.foldl (fun d q => if d.isDirectory q then d else ⟨d.nodes.insert q .directory⟩) d

def makeDirectory (d : Disk) (p : Path) : Disk := d.makeDirectories (ancestors p ++ [p])

def put (d : Disk) (p : Path) (node : DiskNode) : Disk :=
  ⟨(d.makeDirectories (ancestors p)).nodes.insert p node⟩

def write (d : Disk) (p : Path) (bytes : List UInt8) : Disk := d.put p (.file bytes)

def delete (d : Disk) (p : Path) : Disk × Bool :=
  if d.isFile p then (⟨d.nodes.erase p⟩, true) else (d, false)

/-- A directory and what it holds in path order, which is the order of a walk that takes the entries
of each directory by name. -/
def below (d : Disk) (root : Path) : List (Path × DiskNode) :=
  d.nodes.entries.filter fun e => e.1.isBelow root

end Disk

end JavaAtlas
