import JavaAtlas.Data.SortedSet
import JavaAtlas.Text.Split

/-!
# Names of the types outside a project

Only names are kept: which types exist, and which packages they lie in.
-/

namespace JavaAtlas

set_option autoImplicit false

/-- Which types and packages exist, by name. -/
structure TypeLookup where
  hasType : String → Bool
  hasPackage : String → Bool

def TypeLookup.or (a b : TypeLookup) : TypeLookup where
  hasType name := a.hasType name || b.hasType name
  hasPackage name := a.hasPackage name || b.hasPackage name

/-- Types that are known whatever the classpath holds. -/
def bootTypes : List String := [
  "java.lang.AutoCloseable", "java.lang.Boolean", "java.lang.Byte", "java.lang.CharSequence",
  "java.lang.Character", "java.lang.Class", "java.lang.ClassCastException", "java.lang.Cloneable",
  "java.lang.Comparable", "java.lang.Deprecated", "java.lang.Double", "java.lang.Enum",
  "java.lang.Error", "java.lang.Exception", "java.lang.Float", "java.lang.FunctionalInterface",
  "java.lang.IllegalArgumentException", "java.lang.IllegalStateException",
  "java.lang.IndexOutOfBoundsException", "java.lang.Integer", "java.lang.InterruptedException",
  "java.lang.Iterable", "java.lang.Long", "java.lang.Math", "java.lang.NullPointerException",
  "java.lang.Number", "java.lang.Object", "java.lang.Override", "java.lang.Record",
  "java.lang.Runnable", "java.lang.RuntimeException", "java.lang.SafeVarargs", "java.lang.Short",
  "java.lang.String", "java.lang.StringBuilder", "java.lang.SuppressWarnings", "java.lang.System",
  "java.lang.Thread", "java.lang.Throwable", "java.lang.UnsupportedOperationException",
  "java.lang.Void", "java.io.File", "java.io.IOException", "java.io.InputStream",
  "java.io.OutputStream", "java.io.PrintStream", "java.io.Serializable",
  "java.io.UncheckedIOException", "java.nio.file.Files", "java.nio.file.Path",
  "java.nio.file.Paths", "java.util.ArrayDeque", "java.util.ArrayList", "java.util.Arrays",
  "java.util.Collection", "java.util.Collections", "java.util.Comparator", "java.util.Deque",
  "java.util.HashMap", "java.util.HashSet", "java.util.Iterator", "java.util.LinkedHashMap",
  "java.util.LinkedHashSet", "java.util.LinkedList", "java.util.List", "java.util.Map",
  "java.util.Map.Entry", "java.util.Objects", "java.util.Optional", "java.util.Queue",
  "java.util.Set", "java.util.SortedMap", "java.util.TreeMap", "java.util.TreeSet",
  "java.util.function.BiFunction", "java.util.function.Consumer", "java.util.function.Function",
  "java.util.function.Predicate", "java.util.function.Supplier", "java.util.stream.Collectors",
  "java.util.stream.Stream"]

/-- The package of a type name: its leading segments, up to the first that begins with a capital
letter and short of the last. -/
def packageOf? (fqn : String) : Option String :=
  let leading := (Text.segments fqn).dropLast.takeWhile fun s => !(s.toList.head?.any Char.isUpper)
  match ".".intercalate leading with
  | "" => none
  | package => some package

/-- Type names and the packages they lie in. -/
structure ClasspathIndex where
  types : SortedSet String := ∅
  packages : SortedSet String := ∅

namespace ClasspathIndex

def insert (index : ClasspathIndex) (fqn : String) : ClasspathIndex where
  types := SortedSet.add index.types fqn
  packages :=
    match packageOf? fqn with
    | some package => SortedSet.add index.packages package
    | none => index.packages

def insertAll (index : ClasspathIndex) (names : List String) : ClasspathIndex :=
  names.foldl insert index

def empty : ClasspathIndex := {}

def builtin : ClasspathIndex := empty.insertAll bootTypes

def size (index : ClasspathIndex) : Nat := index.types.size

def isEmpty (index : ClasspathIndex) : Bool := index.types.isEmpty

def hasType (index : ClasspathIndex) (fqn : String) : Bool := index.types.contains fqn

def hasPackage (index : ClasspathIndex) (package : String) : Bool := index.packages.contains package

def lookup (index : ClasspathIndex) : TypeLookup := ⟨index.hasType, index.hasPackage⟩

def typeNames (index : ClasspathIndex) : List String := SortedSet.toList index.types

end ClasspathIndex

end JavaAtlas
