import JavaAtlas.Digest.Fingerprint
import JavaAtlas.Path

/-!
# Where the records of a project are kept
-/

namespace JavaAtlas

set_option autoImplicit false

structure HomeSettings where
  cacheDir : Option String := none
  home : Option String := none
  userProfile : Option String := none

inductive LocationError
  | missingHome

def LocationError.message : LocationError → String
  | .missingHome => "failed to determine home directory for default cache path"

structure CacheLocation where
  projectRoot : Path
  projectHash : Fingerprint
  root : Path

namespace CacheLocation

/-- The directory of all projects: the given one, else the one set in the environment, else one in
the home directory. -/
def base (given : Option Path) (env : HomeSettings) : Except LocationError Path :=
  match given, env.cacheDir with
  | some dir, _ => .ok dir
  | none, some dir => if dir = "" then fallback else .ok ⟨dir⟩
  | none, none => fallback
where
  fallback : Except LocationError Path :=
    match env.home.or env.userProfile with
    | some home => .ok ((Path.join ⟨home⟩ ".sable").join "cache")
    | none => .error .missingHome

/-- The directory of a project, named by the fingerprint of its root. -/
def resolve (project : Path) (given : Option Path) (env : HomeSettings) :
    Except LocationError CacheLocation := do
  let projectRoot := project.normalize
  let projectHash := Fingerprint.ofText projectRoot.spelling
  let base ← base given env
  return { projectRoot, projectHash, root := base.join projectHash.hex }

def symbolsDirectory (l : CacheLocation) : Path := l.root.join "symbols"

end CacheLocation

end JavaAtlas
