import JavaAtlas.Data.SortedMap
import JavaAtlas.Java.Parse
import JavaAtlas.Unit.Parse

/-!
# Remembering the last unit of each file

A unit is used again as long as the fingerprint asked for is the one it was parsed under.
-/

namespace JavaAtlas

set_option autoImplicit false

structure ParseCache where
  parser : Java.Parser := Java.parser
  languageLevel : LanguageLevel := {}
  units : SortedMap Path SourceUnit := ∅

namespace ParseCache

instance : Inhabited ParseCache := ⟨{}⟩

/-- Another level makes every unit outdated. -/
def setLanguageLevel (c : ParseCache) (level : LanguageLevel) : ParseCache :=
  if c.languageLevel = level then c else { c with languageLevel := level, units := ∅ }

def parse (c : ParseCache) (path : Path) (text : String) (fingerprint : Fingerprint) : SourceUnit :=
  .parse c.parser path text fingerprint c.languageLevel

def cached? (c : ParseCache) (path : Path) : Option SourceUnit := c.units.get? path

/-- The unit to be used again for a request. -/
def reusable? (c : ParseCache) (path : Path) (fingerprint : Fingerprint) : Option SourceUnit :=
  (c.cached? path).filter fun u => u.fingerprint == fingerprint

/-- The unit of a text, parsed only if the one at hand is for another fingerprint. -/
def parseCached (c : ParseCache) (path : Path) (text : String) (fingerprint : Fingerprint) :
    ParseCache × SourceUnit :=
  match c.reusable? path fingerprint with
  | some u => (c, u)
  | none =>
    let u := c.parse path text fingerprint
    ({ c with units := c.units.insert path u }, u)

def evict (c : ParseCache) (path : Path) : ParseCache × Bool :=
  ({ c with units := c.units.erase path }, c.units.contains path)

def clear (c : ParseCache) : ParseCache := { c with units := ∅ }

def size (c : ParseCache) : Nat := c.units.size

end ParseCache

end JavaAtlas
