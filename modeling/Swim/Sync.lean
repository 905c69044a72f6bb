import Swim.Member
import Swim.Files.Calls

/-!
# Swim.Sync

`swimprotocol.sync`: what `_write_member` makes of the files when a member has changed.

A `Path` of `pathlib` is the list of its components from the root; `base` is where `base_path` is.
What the process may be given in any way is a `Choices`: the order of dictionaries and sets, and
the paths of temporary files. A failed call raises; the files are then of no concern.

* `join`, `relpath` — `path / name` and `os.path.relpath`.
* `tryLink`, `tryUnlink`, `updateStatus`, `writeMember` — the functions of the module.
-/

namespace Swim

open Files (Path Node OSError)

abbrev FileTree := Files.Tree Bytes

namespace Sync

def statuses : List (String × Status) :=
  [(".online", .online), (".offline", .offline), (".suspect", .suspect),
    (".available", .available), (".unavailable", .unavailable)]

/-- `path / name`: an absolute name replaces the path, empty components and "." are dropped. -/
def join (path : List String) (name : String) : List String :=
  (if Files.isAbsolute name then [] else path) ++
    (Files.components name).filter fun c => c != "" && c != "."

/-- The components of `os.path.relpath(path, start)`. -/
def relpath : List String → List String → List String
  | p :: path, s :: start =>
    if p = s then relpath path start else List.replicate (start.length + 1) ".." ++ p :: path
  | path, start => List.replicate start.length ".." ++ path

def tryLink (t : FileTree) (fromPath toPath : List String) : Except OSError (FileTree × Bool) :=
  let relPath := relpath fromPath.dropLast toPath.dropLast
  let linkPath := relPath ++ fromPath.getLast?.toList
  match t.symlink ("/".intercalate linkPath) toPath with
  | .ok t => .ok (t, true)
  | .error .fileExists => .ok (t, false)
  | .error e => .error e

def tryUnlink (t : FileTree) (path : List String) : Except OSError (FileTree × Bool) :=
  match t.unlink path with
  | .ok t => .ok (t, true)
  | .error .notFound => .ok (t, false)
  | .error e => .error e

/-- `if changed: path.touch()`. -/
def touchIf (r : FileTree × Bool) (path : List String) : Except OSError FileTree :=
  if r.2 then r.1.touch [] path else .ok r.1

def updateStatus (t : FileTree) (fromPath statusPath : List String) (name : String)
    (hasStatus : Bool) : Except OSError FileTree := do
  let toPath := join statusPath name
  if hasStatus then
    let r ← tryLink t fromPath toPath
    touchIf r statusPath
  else
    let r ← tryUnlink t toPath
    touchIf r statusPath

/-- `path.mkdir(exist_ok=True)`. -/
def mkdirExistOk (t : FileTree) (path : List String) : Except OSError FileTree :=
  match t.mkdir path with
  | .ok t => .ok t
  | .error .notFound => .error .notFound
  | .error .value => .error .value
  | .error e => if t.stat path = some .dir then .ok t else .error e

/-- What is open in a call for metadata: in which order the items are taken, in which order the
names to be removed are, and where the temporary file for each key is made. -/
structure Choices (metadata : Metadata) where
  items : AList fun _ : String => Bytes
  items_eq : items.toFinmap = metadata
  order : List String → List String
  order_perm : ∀ names, (order names).Perm names
  temp : String → List String

/-- `NamedTemporaryFile(delete=False)`, written, and `os.rename` of it. -/
def writeFile (t : FileTree) (temp path : List String) (val : Bytes) : Except OSError FileTree := do
  let t ← t.mkstemp val temp
  t.rename temp path

/-- `member.metadata`; nothing is known of a new member. -/
def metadata (member : Member) : Metadata := member.metadataDict.getD ∅

/-- The files, and whether the hook is run then. -/
def writeMember (t : FileTree) (member : Member) (base : List String)
    (choices : Choices (metadata member)) : Except OSError (FileTree × Bool) := do
  if member.isLocal then return (t, false)
  let memberPath := join base member.name
  let t ← mkdirExistOk t memberPath
  let t ← statuses.foldlM (fun t s =>
    updateStatus t memberPath (join base s.1) member.name (member.status.overlaps s.2)) t
  let existingNames ← t.listdir memberPath
  let removedNames := choices.order (existingNames.filter fun name =>
    decide (name ∉ choices.items))
  let t ← removedNames.foldlM (fun t name =>
    (tryUnlink t (join memberPath name)).map Prod.fst) t
  let t ← choices.items.entries.foldlM (fun t item =>
    writeFile t (choices.temp item.1) (join memberPath item.1) item.2) t
  let t ← t.touch [] memberPath
  let hook := match t.stat (join base "on-update") with
    | some (.file _) => true
    | _ => false
  return (t, hook)

end Sync

end Swim
