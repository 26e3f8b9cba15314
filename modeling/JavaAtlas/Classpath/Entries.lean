import JavaAtlas.Classpath.Basic
import JavaAtlas.Classpath.EmptyArchive
import JavaAtlas.Disk

/-!
# Reading the classpath from disk

An entry is a directory of class files or an archive of them. Class files are not opened: their
names say which types there are.
-/

namespace JavaAtlas

set_option autoImplicit false

inductive ClasspathEntry
  | directory (path : Path)
  | archive (path : Path)

def ClasspathEntry.path : ClasspathEntry → Path
  | .directory p | .archive p => p

inductive ClasspathError
  /-- The archive cannot be opened. -/
  | missing (path : Path)
  /-- The file is no archive. -/
  | notAnArchive (path : Path)
  /-- The directory is gone, or one below it cannot be listed. -/
  | unreadable (path : Path)
  | unsupported (path : Path)

def ClasspathError.message? : ClasspathError → Option String
  | .unsupported path => some ("unsupported classpath entry " ++ path.spelling)
  | _ => none

/-- The entry at a path: a directory, or something with the extension of an archive. -/
def ClasspathEntry.classify (disk : Disk) (path : Path) : Except ClasspathError ClasspathEntry :=
  if disk.isDirectory path.normalize then .ok (.directory path)
  else
    match path.extension? with
    | some "jar" | some "zip" => .ok (.archive path)
    | _ => .error (.unsupported path)

/-- The type that a class file declares. Descriptors, metadata and the classes that have no name in
the source declare none. -/
def typeOfClassFile? (entry : String) : Option String := do
  let body ← Text.stripSuffix? ".class".toList entry.toList
  let simple := ((Text.splitWhere (· == '/') body).getLast?).getD []
  if "META-INF/".toList.isPrefixOf body then none
  else if simple = "module-info".toList || simple = "package-info".toList then none
  else if ((Text.splitWhere (· == '$') simple).drop 1).any fun part =>
      part.isEmpty || part.head?.any Char.isDigit then none
  else some (String.ofList (body.map fun c => if c == '/' || c == '$' then '.' else c))

/-- The path of `p` seen from `base`, which lies above it. -/
def relativeName (p base : Path) : String :=
  "/".intercalate ((p.components.drop base.components.length).map Component.text)

def ClasspathEntry.typeNames (disk : Disk) : ClasspathEntry → Except ClasspathError (List String)
  | .directory path =>
    let base := path.normalize
    if !disk.isDirectory base || (disk.below base).any (fun e => e.2.isSealed) then
      .error (.unreadable path)
    else
      .ok ((disk.below base).filterMap fun e =>
        if !e.2.isDirectory && e.1.extension? = some "class" then
          typeOfClassFile? (relativeName e.1 base)
        else none)
  | .archive path =>
    match disk.nodes.get? path.normalize with
    | none | some (.locked _) => .error (.missing path)
    | some (.archive names) => .ok (names.eraseDups.filterMap typeOfClassFile?)
    | some (.file bytes) => if Archive.isEmpty bytes then .ok [] else .error (.notAnArchive path)
    | some .directory | some (.sealed _) => .error (.notAnArchive path)

namespace ClasspathIndex

def addEntry (index : ClasspathIndex) (disk : Disk) (entry : ClasspathEntry) :
    Except ClasspathError (ClasspathIndex × Nat) := do
  let names ← entry.typeNames disk
  return (index.insertAll names, names.length)

/-- Adds entry after entry, and says for each what it was taken for and what became of it. One that
cannot be read adds nothing. -/
def addPaths (disk : Disk) : ClasspathIndex → List Path →
    ClasspathIndex × List (Except ClasspathError (ClasspathEntry × Except ClasspathError Nat))
  | index, [] => (index, [])
  | index, path :: rest =>
    match ClasspathEntry.classify disk path with
    | .error e =>
      let (index, outcomes) := addPaths disk index rest
      (index, .error e :: outcomes)
    | .ok entry =>
      let (index, outcome) := match index.addEntry disk entry with
        | .ok (index, count) => (index, .ok count)
        | .error e => (index, .error e)
      let (index, outcomes) := addPaths disk index rest
      (index, .ok (entry, outcome) :: outcomes)

def build (disk : Disk) (entries : List ClasspathEntry) : Except ClasspathError ClasspathIndex :=
  entries.foldlM (fun index entry => (index.addEntry disk entry).map (·.1)) builtin

/-- The boot types and those of the entries that can be read. -/
def buildLenient (disk : Disk) (paths : List Path) : ClasspathIndex :=
  (addPaths disk builtin paths).1

end ClasspathIndex

end JavaAtlas
