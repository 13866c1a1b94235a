import OpenRar.Archive.LinkTargets
import OpenRar.Format.Headers

/-!
# Extraction onto a file tree

`extract_entry` of `archive_reader.cpp` under the command-line extractor of
`cli/main.cpp`, as far as it touches the file tree: directories, regular files, symbolic
links, hard links and copies, in both target layouts.

A session carries every tree it has passed through and every place that contents or an
inode were taken from.  Decoding is left out: an entry comes with the bytes that its
decoding commits, if any.

A destination is a list of components below the root.  The scan for links among its
parents comes before every write, so the destination's place is the root's place followed
by these components.
-/

namespace OpenRar.Archive

open FileTree

abbrev FileSystem := Tree Name UInt8

/-- An extraction root.  `path` is its normalised absolute path and `place` where that
leads; `above k` is the same for the path with `k` more components stripped, nothing if
none is left to confine against.  The root is not the root of the file system. -/
structure Root where
  path : List Name
  place : List Name
  place_ne : place ≠ []
  above : Nat → Option (List Name × List Name)
  above_zero : ∀ r, above 0 = some r → r = (path, place)
  /-- `has_symlink_parent` finds a link at or above the root. -/
  chainLinked : Bool

structure ArchiveEntry where
  header : Format.FileBlock
  /-- The bytes that decoding commits. -/
  content : Option (List UInt8) := none
  /-- A hard link to the entry's source would cross file systems. -/
  crossDevice : Bool := false

/-- A place that an inode or contents came from, and whether a link led there. -/
structure Source where
  place : List Name
  followed : Bool
deriving DecidableEq

/-- The state of an extraction. -/
structure Session where
  tree : FileSystem
  /-- Every tree so far, the last one first. -/
  moments : List FileSystem
  linksCreated : List (List Name) := []
  sessionCreated : List (List Name) := []
  sources : List Source := []

namespace Session

def start (t : FileSystem) : Session where
  tree := t
  moments := [t]

def advance (s : Session) (t : FileSystem) : Session :=
  { s with tree := t, moments := t :: s.moments }

@[simp]
theorem advance_tree (s : Session) (t : FileSystem) : (s.advance t).tree = t := rfl

/-- `std::filesystem::remove` with its error ignored. -/
def removeAt (s : Session) (p : List Name) : Session :=
  match s.tree.remove p with
  | some t => s.advance t
  | none => s

end Session

/-! ## Looking at paths -/

/-- The bound of the system on the links in one path. -/
def maxSymlinks : Nat := 40

def osPath (comps : List Name) : List (Component Name) := pathComponents (joinComponents comps)

/-- `is_reparse_or_symlink` -/
def isReparseOrSymlink (t : FileSystem) (base comps : List Name) : Bool :=
  match t.locate maxSymlinks base (osPath comps) with
  | some p => t.isLinkAt p
  | none => false

/-- The part of `has_symlink_parent` below a base. -/
def linkedBelow (t : FileSystem) (base comps : List Name) : Bool :=
  (List.range (comps.length - 1)).any fun i => isReparseOrSymlink t base (comps.take (i + 1))

/-- `has_symlink_parent` of a destination -/
def hasSymlinkParent (root : Root) (t : FileSystem) (comps : List Name) : Bool :=
  root.chainLinked || linkedBelow t root.place comps

/-! ## Directories -/

/-- The directories of a path one after another; `enter` says where a component leads. -/
def makeDirs (enter : FileSystem → List Name → Name → Option (List Name)) :
    Session → List Name → List Name → Session × Bool
  | s, _, [] => (s, true)
  | s, place, n :: rest =>
    match enter s.tree place n with
    | none => (s, false)
    | some p =>
      match s.tree.node p with
      | some .dir => makeDirs enter s p rest
      | none =>
        match s.tree.create place n .dir with
        | some t => makeDirs enter (s.advance t) (place ++ [n]) rest
        | none => (s, false)
      | _ => (s, false)

/-- `std::filesystem::create_directories`, which follows links. -/
def createDirectories : Session → List Name → List Name → Session × Bool :=
  makeDirs fun t place n => t.follow maxSymlinks place [.name n]

/-- `ContainmentRoot::resolve_dir` with creation, which refuses links. -/
def resolveDir : Session → List Name → List Name → Session × Bool :=
  makeDirs fun t place n => if t.isLinkAt (place ++ [n]) then none else some (place ++ [n])

/-! ## Regular files -/

/-- One link of `convert_self_links`. -/
def convertSelfLink (root : Root) (comps : List Name) (s : Session) (link : List Name) : Session :=
  if link.isPrefixOf comps.dropLast && isReparseOrSymlink s.tree root.place link then
    match s.tree.locate maxSymlinks root.place (osPath link) with
    | some p => (createDirectories (s.removeAt p) root.place link).1
    | none => s
  else s

section Entry

variable (root : Root) (s : Session) (e : ArchiveEntry) (comps : List Name)

/-- `convert_self_links` -/
def convertSelfLinks : Session :=
  s.linksCreated.foldl (convertSelfLink root comps) s

def destDir : List Name := root.place ++ comps.dropLast

def destLeaf : Name := comps.getLastD []

/-- A file over what stands at the destination. -/
def commitFile (bytes : List UInt8) : Session × Bool :=
  match s.tree.replace (destDir root comps) (destLeaf comps) (.file bytes) with
  | some t => (s.advance t, true)
  | none => (s, false)

/-- The last part of `extract_entry_impl`: a contained write. -/
def extractFile : Session × Bool :=
  let s := convertSelfLinks root s comps
  if hasSymlinkParent root s.tree comps then (s, false)
  else
    match resolveDir s root.place comps.dropLast with
    | (s, false) => (s, false)
    | (s, true) =>
      match e.content with
      | some bytes => commitFile root s comps bytes
      | none => (s, false)

/-! ## Redirections -/

def strippedTarget (e : ArchiveEntry) : Name := stripTrailingSlashes e.header.redir.target

/-- The types 1, 2 and 3: `symlink` at the destination. -/
def createSymlink : Session × Bool :=
  if osText (strippedTarget e) = [] then (s, false)
  else
    match s.tree.create (destDir root comps) (destLeaf comps)
        (.link (linkTarget (strippedTarget e))) with
    | some t => ({ s.advance t with linksCreated := s.linksCreated ++ [comps] }, true)
    | none => (s, false)

/-- `get_dest_root`, as a path and the place it leads to. -/
def getDestRoot (arcName : Name) : Option (List Name × List Name) :=
  let depth := sanitizedNameDepth arcName
  if comps.length ≤ depth then root.above (depth - comps.length)
  else
    let kept := comps.take (comps.length - depth)
    some (root.path ++ kept, root.place ++ kept)

def copyTarget (e : ArchiveEntry) : Name :=
  stripTrailingSlashes (normalizeSeparators (strippedTarget e))

/-- The source of a hard link or a copy: the path and the place it is confined to, and
the components below. -/
def redirSource : Option ((List Name × List Name) × List Name) := do
  let base ← getDestRoot root comps e.header.fileName
  let rel ← resolveUnderRoot (copyTarget e)
  some (base, rel)

/-- What a path leads to, links followed. -/
def statNode (t : FileSystem) (base comps : List Name) : Option (List Name × Node Name UInt8) := do
  let p ← t.follow maxSymlinks base (osPath comps)
  let v ← t.node p
  some (p, v)

/-- The contents of a source at the destination. -/
def commitCopy (source : Source) (bytes : List UInt8) : Session × Bool :=
  match commitFile root s comps bytes with
  | (s, true) => ({ s with sources := source :: s.sources }, true)
  | (s, false) => (s, false)

/-- `create_hard_link`, with the copy that stands in for it across file systems. -/
def linkOrCopy (base rel : List Name) : Session × Bool :=
  match s.tree.locate maxSymlinks base (osPath rel) with
  | none => (s, false)
  | some q =>
    match s.tree.node q with
    | none => (s, false)
    | some .dir => (s, false)
    | some v =>
      if e.crossDevice then
        match statNode s.tree base rel with
        | some (p, .file bytes) => commitCopy root s comps ⟨p, s.tree.isLinkAt q⟩ bytes
        -- a directory opens, and nothing can be read from it
        | some (_, .dir) => commitFile root s comps []
        | _ => (s, false)
      else
        match s.tree.create (destDir root comps) (destLeaf comps) v with
        | some t => ({ s.advance t with sources := ⟨q, false⟩ :: s.sources }, true)
        | none => (s, false)

/-- The type 4 -/
def createHardLink : Session × Bool :=
  if copyTarget e = [] then (s, true)
  else
    match redirSource root e comps with
    | none => (s, true)
    | some ((path, base), rel) =>
      if path ++ rel ∉ s.sessionCreated then (s, true)
      else if (statNode s.tree base rel).isNone then (s, true)
      else if linkedBelow s.tree base rel then (s, true)
      else linkOrCopy root s e comps base rel

/-- The type 5, `FILECOPY` -/
def copyFile : Session × Bool :=
  if copyTarget e = [] then (s, true)
  else
    match redirSource root e comps with
    | none => (s, true)
    | some ((_, base), rel) =>
      match statNode s.tree base rel with
      | none => (s, true)
      | some (p, v) =>
        if linkedBelow s.tree base rel then (s, true)
        else
          match v with
          | .file bytes =>
            commitCopy root s comps ⟨p, isReparseOrSymlink s.tree base rel⟩ bytes
          | _ => (s, false)

/-- The dispatch of a redirection on its type, at a cleared destination. -/
def createRedirection : Session × Bool :=
  match e.header.redir.type with
  | 1 | 2 | 3 => createSymlink root s e comps
  | 4 => createHardLink root s e comps
  | 5 => copyFile root s e comps
  | _ => (s, true)

/-- An absolute target, or one that the depth count refuses. -/
def unsafeTarget (e : ArchiveEntry) : Bool :=
  let check := normalizeSeparators (strippedTarget e)
  isFullPath check || !isRelativeSymlinkSafe e.header.fileName check

/-- A redirection: checks, parent directories, and a cleared destination. -/
def extractRedirection : Session × Bool :=
  if unsafeTarget e then (s, true)
  else if hasSymlinkParent root s.tree comps then (s, true)
  else
    match createDirectories s root.place comps.dropLast with
    | (s, false) => (s, false)
    | (s, true) => createRedirection root (s.removeAt (root.place ++ comps)) e comps

/-! ## Entries and archives -/

inductive Layout where
  | full
  | flat
deriving DecidableEq

/-- The switches of the extractor that matter here. -/
structure Options where
  layout : Layout
  extractSymlinks : Bool
  extractVersion : Int := -1

end Entry

/-- `extract_entry_impl` -/
def extractEntryImpl (o : Options) (root : Root) (s : Session) (e : ArchiveEntry)
    (comps : List Name) : Session × Bool :=
  if Format.hasFlag e.header.fileFlags Format.fhflDirectory then resolveDir s root.place comps
  else if e.header.redir.type ≠ 0 then
    if !o.extractSymlinks && e.header.redir.type ≠ 5 then (s, true)
    else extractRedirection root s e comps
  else extractFile root s e comps

/-- `extract_entry`: a destination counts as created whenever the entry did not fail. -/
def extractEntry (o : Options) (root : Root) (s : Session) (e : ArchiveEntry)
    (comps : List Name) : Session × Bool :=
  match extractEntryImpl o root s e comps with
  | (s, true) => ({ s with sessionCreated := (root.path ++ comps) :: s.sessionCreated }, true)
  | (s, false) => (s, false)

/-- The suffix of an old version of a file; the version is compared as an `int`. -/
def versionSuffix (o : Options) (e : ArchiveEntry) : Name :=
  if e.header.hasFileVersion ∧ o.extractVersion ≠ Int.bmod e.header.fileVersion (2 ^ 32) then
    ascii (';' :: Nat.toDigits 10 e.header.fileVersion)
  else []

/-- The target of an entry below the root; nothing for an entry that is skipped. -/
def Options.target (o : Options) (e : ArchiveEntry) : Option (List Name) :=
  let safeName := sanitizeArchivePath e.header.fileName
  if e.header.isService || safeName = [] || pathHas83Component safeName then none
  else
    let comps := (safeName ++ versionSuffix o e).splitOn slash
    match o.layout with
    | .full => some comps
    | .flat => some [comps.getLastD []]

/-- The loop over the entries; a failed entry ends it. -/
def extractAll (o : Options) (root : Root) : Session → List ArchiveEntry → Session
  | s, [] => s
  | s, e :: rest =>
    match o.target e with
    | none => extractAll o root s rest
    | some comps =>
      match extractEntry o root s e comps with
      | (s, true) => extractAll o root s rest
      | (s, false) => s

end OpenRar.Archive
