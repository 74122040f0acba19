import Concord.Manifest.Schema

/-! Which service a file belongs to: the one with the longest root directory around the file, or
else one that a directory on the way is named for. -/
namespace Concord

open Text

/-- A directory that belongs to a service; the empty one holds everything. -/
structure Root where
  directory : List Char
  service : String
  deriving DecidableEq, Repr

namespace Root

def dropDots : List Char → List Char
  | '.' :: '/' :: rest => dropDots rest
  | t => t

/-- A directory as it is written in a configuration, without `./` before and slashes around it. -/
def ofText (service directory : String) : Root :=
  ⟨trimWhere (· == '/') (dropDots directory.toList), service⟩

def contains (r : Root) (path : List Char) : Bool :=
  r.directory.isEmpty || path == r.directory || (r.directory ++ ['/']).isPrefixOf path

def longest? : List Root → Option Root
  | [] => none
  | r :: rs => some (rs.foldl (fun best r =>
      if byteSize best.directory ≤ byteSize r.directory then r else best) r)

end Root

namespace Manifest

/-- The roots of the services by ascending service. Where one is configured, it replaces the one in
the manifest. -/
def roots (m : Manifest) (configured : List (String × String)) : List Root :=
  let declared := m.services.filterMap fun s => s.root.map (s.id, ·)
  let kept := declared.filter fun d => !configured.any (·.1 == d.1)
  ((kept ++ configured).mergeSort fun a b => compare a.1 b.1 != .gt).map fun e => Root.ofText e.1 e.2

/-- The first directory on the way to a file that is named for a service. -/
def namedDirectory? (m : Manifest) (path : List Char) : Option String :=
  (((split '/' path).dropLast).map String.ofList).find? fun d => (m.service? d).isSome

def attribute? (m : Manifest) (roots : List Root) (path : String) : Option String :=
  ((Root.longest? (roots.filter (·.contains path.toList))).map (·.service)).or
    (m.namedDirectory? path.toList)

/-- The service that a file belongs to: that of its path, or else the first that a hint in it
names. -/
def owner? (m : Manifest) (roots : List Root) (file : FileExtraction) : Option String :=
  (m.attribute? roots file.path).or
    (file.observations.findSome? fun o => o.hint.bind (·.service))

end Manifest

end Concord
