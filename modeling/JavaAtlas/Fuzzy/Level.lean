import JavaAtlas.Fuzzy.Score
import JavaAtlas.Naming
import JavaAtlas.Text.Split

/-!
# How close a completion candidate is to the typed prefix
-/

namespace JavaAtlas.Fuzzy

set_option autoImplicit false

inductive MatchLevel
  | noMatch
  | partly
  | foldedPrefix
  | casedPrefix
  | foldedEqual
  | casedEqual
deriving DecidableEq

instance : Named MatchLevel where
  all := [.noMatch, .partly, .foldedPrefix, .casedPrefix, .foldedEqual, .casedEqual]
  name
    | .noMatch => "NotMatch"
    | .partly => "Partial"
    | .foldedPrefix => "CaseInsensitivePrefix"
    | .casedPrefix => "CaseSensitivePrefix"
    | .foldedEqual => "CaseInsensitiveEqual"
    | .casedEqual => "CaseSensitiveEqual"

def sameFolded (a b : List UInt8) : Bool := a.map fold == b.map fold

def matchLevel (typed candidate : String) : MatchLevel :=
  let t := Text.encode typed
  let c := Text.encode candidate
  if t.isPrefixOf c then
    if c.length == t.length then .casedEqual else .casedPrefix
  else if t.length ≤ c.length && sameFolded (c.take t.length) t then
    if c.length == t.length then .foldedEqual else .foldedPrefix
  else if (score typed candidate).isSome then .partly
  else .noMatch

/-- What completion adds for closeness; an empty prefix is close to nothing. -/
def prefixWeight (typed candidate : String) : Int :=
  if typed = "" then 0
  else
    match matchLevel typed candidate with
    | .casedEqual => 200
    | .casedPrefix => 100
    | .foldedEqual | .foldedPrefix => 50
    | .partly | .noMatch => 0

end JavaAtlas.Fuzzy
