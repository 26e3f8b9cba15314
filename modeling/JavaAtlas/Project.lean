import JavaAtlas.Path

/-!
# What a project consists of
-/

namespace JavaAtlas

set_option autoImplicit false

structure LanguageLevel where
  major : UInt16 := 17
  preview : Bool := false
deriving DecidableEq

structure Project where
  sourceRoots : List Path := []
  classpath : List Path := []
  languageLevel : LanguageLevel := {}

namespace Project

def withSourceRoot (p : Project) (root : Path) : Project :=
  { p with sourceRoots := p.sourceRoots ++ [root] }

def withClasspathEntry (p : Project) (entry : Path) : Project :=
  { p with classpath := p.classpath ++ [entry] }

end Project

end JavaAtlas
