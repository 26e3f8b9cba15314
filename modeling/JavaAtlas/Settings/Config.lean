import JavaAtlas.Path
import JavaAtlas.Settings.Toml

/-!
# Engine configuration

Every table and key is optional and has a default. Keys that mean nothing are kept apart by their
dotted names, so that a misspelt one can be reported.
-/

namespace JavaAtlas

set_option autoImplicit false

structure LoggingConfig where
  level : String := "info"
  json : Bool := false
  stderr : Bool := true
  file : Option String := none
deriving DecidableEq

structure CacheConfig where
  enabled : Bool := true
  dir : Option String := none
deriving DecidableEq

structure IndexingConfig where
  computeThreads : Nat := 0
  skipUnchangedFiles : Bool := true
  maxFileBytes : Nat := 2097152
deriving DecidableEq

structure EngineConfig where
  logging : LoggingConfig := {}
  cache : CacheConfig := {}
  indexing : IndexingConfig := {}
deriving DecidableEq

inductive ConfigError
  /-- The file cannot be read. -/
  | missing (path : Path)
  /-- The text is not a TOML document, or a value has the wrong type. -/
  | malformed
deriving BEq

def ConfigError.message : ConfigError → String
  | .missing path =>
    "failed to read config file " ++ path.spelling ++ ": No such file or directory (os error 2)"
  | .malformed => "failed to parse toml config"

namespace EngineConfig

open Toml (Value Entries)

def readText : Value → Option String
  | .text s => some s
  | _ => none

def readFlag : Value → Option Bool
  | .flag b => some b
  | _ => none

def readCount : Value → Option Nat
  | .whole n => if n < 0 then none else some n.toNat
  | _ => none

/-- The value of a key, the default when the key is absent, nothing when it has another type. -/
def readKey {α : Type} (entries : Entries) (key : String) (read : Value → Option α)
    (fallback : α) : Option α :=
  match Toml.lookup entries key with
  | none => some fallback
  | some v => read v

def momentKey : String := "$__toml_private_datetime"

/-- The entries of a group of settings. A list gives the settings in the order of their names; a date
has one entry that means nothing. -/
def groupEntries (names : List String) : Value → Option Entries
  | .table _ entries => some entries
  | .array items => some (names.zip items)
  | .tables items => some (names.zip (items.map (.table .header)))
  | .moment => some [(momentKey, .moment)]
  | _ => none

def loggingKeys : List String := ["level", "json", "stderr", "file"]

def cacheKeys : List String := ["enabled", "dir"]

def indexingKeys : List String := ["compute_threads", "skip_unchanged_files", "max_file_bytes"]

def readLogging (entries : Entries) : Option LoggingConfig := do
  let level ← readKey entries "level" readText "info"
  let json ← readKey entries "json" readFlag false
  let stderr ← readKey entries "stderr" readFlag true
  let file ← readKey entries "file" (fun v => (readText v).map some) none
  return { level, json, stderr, file }

def readCache (entries : Entries) : Option CacheConfig := do
  let enabled ← readKey entries "enabled" readFlag true
  let dir ← readKey entries "dir" (fun v => (readText v).map some) none
  return { enabled, dir }

def readIndexing (entries : Entries) : Option IndexingConfig := do
  let computeThreads ← readKey entries "compute_threads" readCount 0
  let skipUnchangedFiles ← readKey entries "skip_unchanged_files" readFlag true
  let maxFileBytes ← readKey entries "max_file_bytes" readCount 2097152
  return { computeThreads, skipUnchangedFiles, maxFileBytes }

/-- The names of the entries that are not among `known`, each behind `above`. -/
def strangers (above : String) (known : List String) (entries : Entries) : List String :=
  ((entries.map (·.1)).filter fun key => !known.contains key).map (above ++ ·)

/-- The entries under a group name; none when the group is absent. -/
def group (root : Entries) (name : String) (names : List String) : Option Entries :=
  match Toml.lookup root name with
  | none => some []
  | some v => groupEntries names v

/-- The configuration a TOML text describes, with the dotted names of the keys it ignores in
order. -/
def parse (text : String) : Except ConfigError (EngineConfig × List String) :=
  let result : Option (EngineConfig × List String) := do
    let root ← Toml.parse? text
    let loggingEntries ← group root "logging" loggingKeys
    let cacheEntries ← group root "cache" cacheKeys
    let indexingEntries ← group root "indexing" indexingKeys
    let logging ← readLogging loggingEntries
    let cache ← readCache cacheEntries
    let indexing ← readIndexing indexingEntries
    let unknown := strangers "" ["logging", "cache", "indexing"] root ++
      strangers "logging." loggingKeys loggingEntries ++
      strangers "cache." cacheKeys cacheEntries ++
      strangers "indexing." indexingKeys indexingEntries
    let unknown := unknown.map fun key => String.ofList (key.toList.dropWhile (· == '.'))
    return ({ logging, cache, indexing }, (unknown.mergeSort fun a b => a ≤ b).eraseDups)
  match result with
  | some r => .ok r
  | none => .error .malformed

def load (path : Path) (contents : Option String) : Except ConfigError EngineConfig :=
  match contents with
  | none => .error (.missing path)
  | some text => (parse text).map (·.1)

end EngineConfig

end JavaAtlas
